import Gnos.ProofKit.Ring

/-! Stream sockets of the local domain: `src/net/unix/unix.c`.  A socket is named by its slot in the
table.  Calls that may sleep are one pass of their loops each.  Handles that a call lets go of with
`vfs_file_unref` are part of its result. -/

namespace Gnos.Unix

open ProofKit

def unixMax : ℕ := 128
def unixRing : ℕ := 8192
def unixBacklog : ℕ := 8
def unixNameMax : ℕ := 108
def unixFdsMax : ℕ := 16

inductive Err where
  | badf | inval | nametoolong | addrinuse | isconn | connrefused | again | pipe | msgsize | nobufs
  | nomem | socktnosupport | protonosupport
  deriving DecidableEq

/-- A name: its bytes, and whether it is in the abstract namespace. -/
structure Name where
  bytes : List (BitVec 8)
  abstract : Bool
  deriving DecidableEq

/-- `unix_t`, without credentials.  `path` is `bound` with `has_path`; `fds` are the handles that
wait for `recvmsg`, the first one first. -/
structure Sock where
  used : Bool := false
  nonblock : Bool := false
  rx : RingBuf (BitVec 8) := ⟨fun _ => 0, 0, 0, 0⟩
  cap : ℕ := 0
  fds : List ℕ := []
  path : Option Name := none
  listening : Bool := false
  peer : Option ℕ := none
  backlog : List ℕ := []
  shutRx : Bool := false
  shutTx : Bool := false
  peerClosed : Bool := false

structure Socks where
  sock : ℕ → Sock

variable (t : Socks) (u : ℕ) (path : Name)

namespace Socks

def set (s : Sock) : Socks := ⟨Function.update t.sock u s⟩

def modify (f : Sock → Sock) : Socks := t.set u (f (t.sock u))

def at? : Option Sock :=
  if u < unixMax ∧ (t.sock u).used then some (t.sock u) else none

/-- `unix_create`: `stream` is whether the type is `SOCK_STREAM`, `mem` whether `kmalloc`
succeeds. -/
def create (stream : Bool) (protocol : ℕ) (nonblock mem : Bool) : Except Err ℕ × Socks :=
  if stream = false then (.error .socktnosupport, t)
  else if protocol ≠ 0 ∧ protocol ≠ 1 then (.error .protonosupport, t)
  else
    match (List.range unixMax).find? fun i => !(t.sock i).used with
    | none => (.error .nobufs, t)
    | some i =>
      if mem then (.ok i, t.set i { cap := unixRing, nonblock := nonblock, used := true })
      else (.error .nomem, t.set i {})

def hangUp : Socks :=
  match (t.sock u).peer with
  | some v => t.modify v fun s => { s with peerClosed := true, peer := none }
  | none => t

/-- The end of `unix_close`. -/
def free : Socks := t.modify u fun s => { s with used := false }

/-- `unix_close`, with the handles that it lets go of. -/
def close : Socks × List ℕ :=
  match t.at? u with
  | none => (t, [])
  | some s => ((t.hangUp u).free u, s.fds)

/-- `memcmp` of `bound` and `path` with one byte behind the name. -/
def sameName (bound path : Name) : Bool :=
  bound.abstract = path.abstract &&
    (List.range (path.bytes.length + 1)).all fun i => bound.bytes.getD i 0 = path.bytes.getD i 0

def badName : Bool := path.bytes.length = 0 || unixNameMax - 1 < path.bytes.length

def bind : Except Err Unit × Socks :=
  match t.at? u with
  | none => (.error .badf, t)
  | some s =>
    if s.path.isSome || s.listening || s.peer.isSome then (.error .inval, t)
    else if badName path then (.error .nametoolong, t)
    else if (List.range unixMax).any fun i =>
        (t.sock i).used && (t.sock i).path.any (sameName · path) && i ≠ u then
      (.error .addrinuse, t)
    else (.ok (), t.modify u fun s => { s with path := some path })

def listener : Option ℕ :=
  (List.range unixMax).find? fun i =>
    (t.sock i).used && (t.sock i).listening && (t.sock i).path.any (sameName · path)

def listen : Except Err Unit × Socks :=
  match t.at? u with
  | none => (.error .badf, t)
  | some s =>
    if s.peer.isSome then (.error .isconn, t)
    else if s.path.isNone then (.error .inval, t)
    else (.ok (), t.modify u fun s => { s with listening := true })

def pairUp (u c l : ℕ) : Socks :=
  ((t.modify c fun s => { s with peer := some u, peerClosed := false }).modify u
    fun s => { s with peer := some c }).modify l fun s => { s with backlog := s.backlog ++ [c] }

def connect (mem : Bool) : Except Err Unit × Socks :=
  match t.at? u with
  | none => (.error .badf, t)
  | some s =>
    if s.peer.isSome then (.error .isconn, t)
    else if s.listening then (.error .inval, t)
    else if badName path then (.error .nametoolong, t)
    else
      match t.listener path with
      | none => (.error .connrefused, t)
      | some l =>
        if unixBacklog ≤ (t.sock l).backlog.length then (.error .connrefused, t)
        else
          match t.create true 0 false mem with
          | (.error e, t) => (.error e, t)
          | (.ok c, t) => (.ok (), t.pairUp u c l)

/-- One pass of `unix_accept`: the child, or nothing for a caller that must wait. -/
def accept : Except Err (Option ℕ) × Socks :=
  match t.at? u with
  | none => (.error .badf, t)
  | some s =>
    if s.listening = false then (.error .badf, t)
    else
      match s.backlog with
      | [] => (if s.nonblock then .error .again else .ok none, t)
      | c :: cs => (.ok (some c), t.modify u fun s => { s with backlog := cs })

/-- The rest of `unix_accept` after a sleep, which looks at the slot whatever it holds now. -/
def acceptMore : Except Err (Option ℕ) × Socks :=
  match (t.sock u).backlog with
  | [] => (if (t.sock u).used then .ok none else .error .badf, t)
  | c :: cs => (.ok (some c), t.modify u fun s => { s with backlog := cs })

def link (a b : ℕ) : Socks :=
  if (t.at? a).isSome && (t.at? b).isSome then
    ((((t.modify a fun s => { s with peer := some b }).modify b
      fun s => { s with peer := some a }).modify a
      fun s => { s with peerClosed := false }).modify b fun s => { s with peerClosed := false })
  else t

/-- `sys_socketpair` up to the descriptors: two fresh sockets that are linked. -/
def socketpair (stream : Bool) (protocol : ℕ) (nonblock mem mem' : Bool) :
    Except Err (ℕ × ℕ) × Socks :=
  match t.create stream protocol nonblock mem with
  | (.error e, t) => (.error e, t)
  | (.ok a, t) =>
    match t.create stream protocol nonblock mem' with
    | (.error e, t) => (.error e, (t.close a).1)
    | (.ok b, t) => (.ok (a, b), t.link a b)

/-- The halves that `unix_shutdown` marks; `how` is 0, 1 or 2 for reading, writing and both. -/
def shutFlags (u how : ℕ) : Socks :=
  let t := if how = 0 ∨ how = 2 then t.modify u fun s => { s with shutRx := true } else t
  if how = 1 ∨ how = 2 then t.modify u fun s => { s with shutTx := true } else t

def shutdown (u how : ℕ) : Except Err Unit × Socks :=
  match t.at? u with
  | none => (.error .badf, t)
  | some _ =>
    let t := t.shutFlags u how
    (.ok (), if how = 1 ∨ how = 2 then t.hangUp u else t)

/-- How a pass over the ring ends; a sender that must wait has put some bytes into the ring. -/
inductive Pass where
  | read (bytes : List (BitVec 8))
  | sent (n : ℕ)
  | err (e : Err)
  | wait (sent : ℕ)
  deriving DecidableEq

/-- One pass of `unix_recv_data`. -/
def recvData (u len : ℕ) (peek nonblock : Bool) : Pass × Socks :=
  let s := t.sock u
  if len = 0 then (.read [], t)
  else if 0 < s.rx.count then
    let chunk := min len s.rx.count
    let r := s.rx.popN s.cap chunk
    (.read r.1, if peek then t else t.modify u fun s => { s with rx := r.2 })
  else if s.peerClosed || s.shutRx then (.read [], t)
  else if nonblock || s.nonblock then (.err .again, t)
  else (.wait 0, t)

/-- The bytes go into the ring of `d` as far as there is room. -/
def deposit (d : ℕ) (bytes : List (BitVec 8)) : Socks :=
  t.modify d fun s => { s with rx := s.rx.pushAll s.cap (bytes.take (s.cap - s.rx.count)) }

/-- The loop of `unix_send_data` until it is done or finds the ring full, with `sent` bytes sent
before. -/
def fill (u d sent : ℕ) (bytes : List (BitVec 8)) : Pass × Socks :=
  let room := (t.sock d).cap - (t.sock d).rx.count
  let total := sent + min bytes.length room
  let t' := t.deposit d bytes
  if bytes.length ≤ room then (.sent total, t')
  else if (t.sock u).nonblock then (if 0 < total then .sent total else .err .again, t')
  else (.wait total, t')

/-- `unix_send_data` up to its first sleep. -/
def sendData (bytes : List (BitVec 8)) : Pass × Socks :=
  match (t.sock u).peer with
  | none => (.err .pipe, t)
  | some d =>
    if (t.sock u).shutTx || (t.sock d).peerClosed || (t.sock d).shutRx then (.err .pipe, t)
    else t.fill u d 0 bytes

/-- `unix_send_data` after a sleep, with `sent` bytes sent and `bytes` left. -/
def sendMore (u d sent : ℕ) (bytes : List (BitVec 8)) : Pass × Socks :=
  if (t.sock u).peer ≠ some d ∨ (t.sock d).peerClosed then
    (if 0 < sent then .sent sent else .err .pipe, t)
  else t.fill u d sent bytes

def queueFds (handles : List ℕ) : Option Err × Socks :=
  if unixFdsMax < (t.sock u).fds.length + handles.length then (some .msgsize, t)
  else (none, t.modify u fun s => { s with fds := s.fds ++ handles })

/-- `unix_drop_fds`: the last `n` handles go, the last one first. -/
def dropFds (u n : ℕ) : Socks × List ℕ :=
  let fds := (t.sock u).fds
  (t.modify u fun s => { s with fds := fds.take (fds.length - n) },
    (fds.drop (fds.length - n)).reverse)

/-- `unix_node_read`, with the handles that it lets go of. -/
def nodeRead (u len : ℕ) : Pass × Socks × List ℕ :=
  match t.at? u with
  | none => (.err .badf, t, [])
  | some s =>
    let r := t.dropFds u s.fds.length
    let p := r.1.recvData u len false false
    (p.1, p.2, r.2)

def nodeWrite (bytes : List (BitVec 8)) : Pass × Socks :=
  match t.at? u with
  | none => (.err .badf, t)
  | some _ => t.sendData u bytes

/-- `unix_sendmsg` up to its first sleep. -/
def sendmsg (bytes : List (BitVec 8)) (handles : List ℕ) : Pass × Socks :=
  match t.at? u with
  | none => (.err .badf, t)
  | some s =>
    if handles = [] then t.sendData u bytes
    else
      match s.peer with
      | none => (.err .pipe, t)
      | some v =>
        match t.queueFds v handles with
        | (some e, t) => (.err e, t)
        | (none, t) => t.sendData u bytes

/-- `unix_recvmsg` up to its first sleep: how the pass ends, the handles for the caller, who has
room for `room`, and those that it lets go of. -/
def recvmsg (u len room : ℕ) (peek dontwait : Bool) : Pass × List ℕ × Socks × List ℕ :=
  match t.at? u with
  | none => (.err .badf, [], t, [])
  | some s =>
    if peek then
      let p := t.recvData u len true dontwait
      (p.1, [], p.2, [])
    else
      let take := min s.fds.length room
      let r := t.dropFds u (s.fds.length - take)
      let p := r.1.recvData u len false dontwait
      (p.1, s.fds.take take, p.2, r.2)

end Socks

end Gnos.Unix
