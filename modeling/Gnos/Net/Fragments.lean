import Gnos.ProofKit.Pieces
import Gnos.ProofKit.Word

/-! IP fragmentation and reassembly of `src/net/net.c`: `net_ip_output` and `ip_reassemble`.  A
packet is taken as `ip_input` reads it; the header bytes, checksums and the way to the link are left
out. -/

namespace Gnos.Net

open ProofKit

def netMtu : ℕ := 1500
def ipHdrLen : ℕ := 20
def ipfSlots : ℕ := 8
def ipfMax : ℕ := 65535

def ipfLifeTicks : ℕ := 30 * 100

structure Key where
  src : BitVec 32
  dst : BitVec 32
  id : BitVec 16
  proto : BitVec 8
  deriving DecidableEq

structure Packet extends Key where
  /-- The flags and the offset in units of 8 bytes. -/
  frag : BitVec 16
  seg : List (BitVec 8)
  deriving DecidableEq

namespace Packet

variable (p : Packet)

def offset : ℕ := (p.frag &&& 0x1FFF).toNat * 8

def more : Bool := p.frag &&& 0x2000 ≠ 0

def isFragment : Bool := p.frag &&& 0x3FFF ≠ 0

def piece : Piece (BitVec 8) := ⟨p.offset, p.seg⟩

def stop : ℕ := p.offset + p.seg.length

/-- The blocks of 8 bytes that the packet is taken to fill. -/
def Marks (b : ℕ) : Prop := p.offset / 8 ≤ b ∧ b < (p.stop + 7) / 8

instance (p : Packet) (b : ℕ) : Decidable (p.Marks b) := inferInstanceAs (Decidable (_ ∧ _))

end Packet

def chunk : ℕ := (netMtu - ipHdrLen) / 8 * 8

/-- The fragment of `payload` that starts at `off`. -/
def fragmentAt (k : Key) (payload : List (BitVec 8)) (off : ℕ) : Packet :=
  let n := if payload.length - off < chunk then payload.length - off else chunk
  { k with
    frag := BitVec.ofNat 16 (off / 8) ||| if off + n < payload.length then 0x2000 else 0
    seg := (payload.drop off).take n }

/-- The loop of `net_ip_output`; `off` is a 16-bit number. -/
def sendFragments (k : Key) (payload : List (BitVec 8)) : (fuel off : ℕ) → List Packet
  | 0, _ => []
  | fuel + 1, off =>
    if off < payload.length then
      let p := fragmentAt k payload off
      p :: sendFragments k payload fuel ((off + p.seg.length) % 2 ^ 16)
    else []

/-- `net_ip_output`: the counter of datagrams and the packets, when the link takes them all. -/
def netIpOutput (gIpId : BitVec 16) (src dst : BitVec 32) (proto : BitVec 8)
    (payload : List (BitVec 8)) : BitVec 16 × List Packet :=
  let id := gIpId + 1
  let k : Key := ⟨src, dst, id, proto⟩
  if payload.length + ipHdrLen ≤ netMtu then (id, [{ k with frag := 0x4000, seg := payload }])
  else (id, sendFragments k payload payload.length 0)

/-- `ipf_t` of a slot in use.  A byte of the buffer that nothing was written to is `none`. -/
structure Ipf where
  key : Key
  /-- The last arrival of a fragment. -/
  stamp : ℕ
  data : ℕ → Option (BitVec 8)
  /-- The size of the buffer. -/
  dlen : ℕ
  /-- The length of the datagram, 0 if it is not known. -/
  total : ℕ
  /-- The bytes received. -/
  got : ℕ
  /-- The blocks received. -/
  holes : ℕ → Bool
  nblocks : ℕ

def alignUp64 (v : ℕ) : ℕ := add64 v 63 &&& not64 63

variable (f : Ipf)

namespace Ipf

def fresh (k : Key) (now : ℕ) : Ipf := ⟨k, now, fun _ => none, 0, 0, 0, fun _ => false, 0⟩

def setStamp (now : ℕ) : Ipf := { f with stamp := now }

/-- Makes room for `need` bytes, in buffers that `kmalloc` gives. -/
def grow (need : ℕ) : Ipf :=
  if f.dlen < need then
    { f with
      data := fun i => if i < f.dlen then f.data i else none
      dlen := alignUp64 need
      holes := fun b => if b < f.nblocks then f.holes b else false
      nblocks := alignUp64 (need / 8 + 1) }
  else f

def newTotal (p : Packet) : ℕ :=
  if !p.more && f.total < p.stop && p.stop ≤ ipfMax then p.stop else f.total

/-- Copies a fragment in, in a buffer that has room for it, and marks its blocks. -/
def copyIn (p : Packet) : Ipf :=
  { f with
    data := p.piece.paste f.data
    holes := fun b => if p.Marks b then true else f.holes b
    got := add32 f.got p.seg.length
    total := f.newTotal p }

def absorb (p : Packet) : Ipf := (f.grow p.stop).copyIn p

def complete : Bool :=
  f.total ≠ 0 && f.total ≤ f.got && (List.range ((f.total + 7) / 8)).all f.holes

def whole : List (Option (BitVec 8)) := (List.range f.total).map f.data

end Ipf

structure IpStack where
  slots : Fin ipfSlots → Option Ipf := fun _ => none
  ticks : ℕ := 0

structure Delivery where
  key : Key
  bytes : List (Option (BitVec 8))
  deriving DecidableEq

variable (s : IpStack)

namespace IpStack

def put (i : Fin ipfSlots) (f : Option Ipf) : IpStack :=
  { s with slots := Function.update s.slots i f }

def ipfFind (k : Key) : Option (Fin ipfSlots) :=
  (List.finRange ipfSlots).find? fun i => (s.slots i).any (·.key = k)

/-- `ipf_slot`: the slot of the datagram, or a free one. -/
def ipfSlot (k : Key) : Option (Fin ipfSlots × Ipf) :=
  match s.ipfFind k with
  | some i => (s.slots i).map (i, ·)
  | none =>
    ((List.finRange ipfSlots).find? fun i => (s.slots i).isNone).map (·, Ipf.fresh k s.ticks)

def ipfGc : IpStack :=
  { s with slots := fun i => (s.slots i).filter fun f => sub64 s.ticks f.stamp < ipfLifeTicks }

/-- `ip_reassemble`; `room` says whether `kmalloc` has the memory for the two buffers. -/
def ipReassemble (p : Packet) (room : Bool) : IpStack × Option Delivery :=
  if ipfMax < p.stop then (s, none)
  else
    match s.ipfSlot p.toKey with
    | none => (s, none)
    | some (i, f) =>
      let f := f.setStamp s.ticks
      if f.dlen < p.stop && !room then (s.put i none, none)
      else
        let f := f.absorb p
        if f.complete then (s.put i none, some ⟨f.key, f.whole⟩) else (s.put i (some f), none)

/-- The end of `ip_input`, for a packet to this machine. -/
def ipInput (p : Packet) (room : Bool) : IpStack × Option Delivery :=
  if p.isFragment then s.ipReassemble p room else (s, some ⟨p.toKey, p.seg.map some⟩)

end IpStack

inductive IpEvent
  | input (p : Packet) (room : Bool)
  /-- `net_tick`. -/
  | gc
  | timer

namespace IpStack

def step : IpEvent → IpStack × Option Delivery
  | .input p room => s.ipInput p room
  | .gc => (s.ipfGc, none)
  | .timer => ({ s with ticks := add64 s.ticks 1 }, none)

def exec (e : IpEvent) : IpStack := (s.step e).1

def outputs : IpStack → List IpEvent → List Delivery
  | _, [] => []
  | s, e :: es => (s.step e).2.toList ++ (s.exec e).outputs es

end IpStack

def IpEvent.packet? : IpEvent → Option Packet
  | .input p _ => some p
  | _ => none

end Gnos.Net
