import Gnos.ProofKit.Runs
import Gnos.Tcp.Model

/-! The control blocks of `src/net/ipv4/tcp.c`: who has which block of the pool.  A block that a
listener makes for a SYN has no owner until the handshake is over, and no timer frees it.  The
segments that are sent are left out. -/

namespace Gnos.Tcp

open ProofKit List

def tcpMaxPcb : ℕ := 8
def tcpBacklog : ℕ := 4

/-- A control block with its addresses and its place in the pool; 0 is `IP_ANY` and no port. -/
structure Block where
  used : Bool := false
  lip : ℕ := 0
  rip : ℕ := 0
  lport : ℕ := 0
  rport : ℕ := 0
  pcb : Pcb := {}
  parent : Option ℕ := none
  acceptQ : List ℕ := []

/-- An unbound block gets the port that `ephemeral_port` found, if it found one. -/
def Block.withPort (b : Block) (eph : ℕ) : Option Block :=
  if b.lport ≠ 0 then some b else if eph ≠ 0 then some { b with lport := eph } else none

structure Pool where
  block : ℕ → Block
  sockets : List ℕ

inductive Call where
  | bind (ip port : ℕ) (isLocal : Bool)
  | listen (eph : ℕ)
  | connect (ip port eph : ℕ) (route : Bool) (iss : BitVec 32) (now : ℕ)
  | accept
  | destroy

/-- `mem` is whether there are pages for the rings of a new block. -/
inductive PoolOp where
  | new (mem : Bool)
  | call (p : ℕ) (c : Call)
  | input (src dst sport dport : ℕ) (seg : Segment) (iss : BitVec 32) (now : ℕ) (mem : Bool)
  | tick (now : ℕ)

namespace Pool

variable (t : Pool)

def modify (i : ℕ) (f : Block → Block) : Pool :=
  { t with block := Function.update t.block i (f (t.block i)) }

def slot : Option ℕ := (range tcpMaxPcb).find? fun i => !(t.block i).used

def pcbAlloc (mem : Bool) : Option ℕ × Pool :=
  match t.slot with
  | none => (none, t)
  | some i => if mem then (some i, t.modify i fun _ => { used := true }) else (none,
      t.modify i fun _ => {})

def tcpNew (mem : Bool) : Pool :=
  match t.pcbAlloc mem with
  | (none, t) => t
  | (some i, t) => { t with sockets := i :: t.sockets }

def portInUse (ip port : ℕ) : Bool :=
  (range tcpMaxPcb).any fun i => (t.block i).used && (t.block i).lport = port &&
    ((t.block i).lip = 0 || ip = 0 || (t.block i).lip = ip)

/-- The block leaves the queue of its listener, whose last child takes its place. -/
def unlink (p : ℕ) (q : List ℕ) : List ℕ :=
  if p ∈ q then (q.set (q.idxOf p) (q.getLastD 0)).dropLast else q

def call (p : ℕ) : Call → Pool
  | .bind ip port isLocal =>
    if (t.block p).pcb.state ≠ .closed ∨ ip ≠ 0 ∧ !isLocal ∨ port = 0 ∨ t.portInUse ip port then t
    else t.modify p fun b => { b with lip := ip, lport := port }
  | .listen eph =>
    if (t.block p).pcb.state ≠ .closed then t
    else
      match (t.block p).withPort eph with
      | none => t
      | some b => t.modify p fun _ => { b with pcb := { b.pcb with state := .listen } }
  | .connect ip port eph route iss now =>
    if (t.block p).pcb.state ≠ .closed then t
    else
      match (t.block p).withPort eph with
      | none => t
      | some b =>
        let pcb := { b.pcb with sndUna := iss, sndNxt := iss + 1, sndEnd := iss, state := .synSent }
        let pcb := { pcb.rtoArm now with connAt := add64 now tcpConnTicks }
        t.modify p fun _ => if route then { b with rip := ip, rport := port, pcb } else b
  | .accept =>
    match (t.block p).acceptQ with
    | [] => t
    | c :: q =>
      if (t.block p).pcb.state ≠ .listen then t
      else
        { (t.modify p fun b => { b with acceptQ := q }).modify c
          fun b => { b with parent := none } with
          sockets := c :: t.sockets }
  | .destroy =>
    let t := match (t.block p).parent with
      | none => t
      | some par => t.modify par fun b => { b with acceptQ := unlink p b.acceptQ }
    { t.modify p fun b => { b with used := false } with sockets := t.sockets.erase p }

/-- `pcb_lookup`: the first block of the connection, or else the last listener. -/
def lookup (src dst sport dport : ℕ) : Option ℕ :=
  let bound i := (t.block i).used && (t.block i).lport = dport &&
    ((t.block i).lip = 0 || (t.block i).lip = dst)
  let exact_ i := bound i && (t.block i).pcb.state ≠ .listen && (t.block i).pcb.state ≠ .closed &&
    (t.block i).rport = sport && (t.block i).rip = src
  let listens i := bound i && (t.block i).pcb.state = .listen
  ((range tcpMaxPcb).find? exact_).or ((range tcpMaxPcb).reverse.find? listens)

def synArrived (l src dst sport : ℕ) (seg : Segment) (iss : BitVec 32) (now : ℕ) (mem : Bool) :
    Pool :=
  match t.pcbAlloc mem with
  | (none, t) => t
  | (some c, t) => t.modify c fun b =>
      { b with
        lip := dst, lport := (t.block l).lport, rip := src, rport := sport, parent := some l
        pcb := (Pcb.synArrived seg iss now).1 }

/-- A child whose handshake is over waits to be accepted, if the listener is there and has room. -/
def enqueue (c : ℕ) : Pool :=
  match (t.block c).parent with
  | none => t
  | some l =>
    if (t.block l).used ∧ (t.block l).pcb.state = .listen ∧
      (t.block l).acceptQ.length < tcpBacklog then
      t.modify l fun b => { b with acceptQ := b.acceptQ ++ [c] }
    else t

def tcpInput (src dst sport dport : ℕ) (seg : Segment) (iss : BitVec 32) (now : ℕ) (mem : Bool) :
    Pool :=
  match t.lookup src dst sport dport with
  | none => t
  | some i =>
    let p := (t.block i).pcb
    if p.state = .listen then
      if seg.flags.rst || seg.flags.ack || !seg.flags.syn then t
      else t.synArrived i src dst sport seg iss now mem
    else
      let t := t.modify i fun b => { b with pcb := (p.tcpInput seg iss now).1 }
      if p.state = .synRcvd ∧ seg.flags.ack ∧ !seg.flags.rst ∧ seg.ack = p.sndNxt then
        t.enqueue i
      else t

def tcpTick (now : ℕ) : Pool :=
  { t with block := fun i =>
      if (t.block i).used then { t.block i with pcb := ((t.block i).pcb.tcpTick now).1 }
      else t.block i }

/-- Only the socket that has a block calls its functions. -/
def exec (t : Pool) : PoolOp → Pool
  | .new mem => t.tcpNew mem
  | .call p c => if p ∈ t.sockets then t.call p c else t
  | .input src dst sport dport seg iss now mem => t.tcpInput src dst sport dport seg iss now mem
  | .tick now => t.tcpTick now

inductive Owner where
  | socket (k : ℕ)
  | queue (l k : ℕ)
  | protocol

def Closing (s : State) : Prop :=
  s = .finWait1 ∨ s = .finWait2 ∨ s = .closing ∨ s = .lastAck ∨ s = .timeWait

/-- A socket has the block; it waits in the queue of a live listener; or it finishes closing, and
some ticks will free it. -/
def Owns (i : ℕ) : Owner → Prop
  | .socket k => t.sockets[k]? = some i
  | .queue l k =>
    (t.block l).used ∧ (t.block l).pcb.state = .listen ∧ (t.block l).acceptQ[k]? = some i
  | .protocol =>
    Closing (t.block i).pcb.state ∧ ∃ nows : List ℕ, ((nows.foldl tcpTick t).block i).used = false

structure Owned : Prop where
  once : ∀ i, (t.block i).used → ∃! o, t.Owns i o
  sockets : ∀ i ∈ t.sockets, (t.block i).used
  queues : ∀ l, (t.block l).used → ∀ i ∈ (t.block l).acceptQ, (t.block i).used

/-- The blocks are owned as they must be after the step, and those of the children of a listener
that was destroyed are free. -/
def Keeps (op : PoolOp) : Prop :=
  (t.exec op).Owned ∧ ∀ p, op = .call p .destroy → p ∈ t.sockets →
    ∀ i, (t.block i).used → (t.block i).parent = some p → ((t.exec op).block i).used = false

def TakesSyn : PoolOp → Prop
  | .input src dst sport dport seg _ _ mem =>
    (∃ l, t.lookup src dst sport dport = some l ∧ (t.block l).pcb.state = .listen) ∧
      (!seg.flags.rst && !seg.flags.ack && seg.flags.syn && mem) ∧ t.slot ≠ none
  | _ => False

def boot : Pool := ⟨fun _ => {}, []⟩

/-- Every block in use is a socket's, and no listener has children. -/
structure Childless : Prop where
  used : ∀ i, (t.block i).used ↔ i ∈ t.sockets
  nodup : t.sockets.Nodup
  alone : ∀ i, (t.block i).used → (t.block i).parent = none ∧ (t.block i).acceptQ = []

variable {t} {i : ℕ}

theorem used_ticks (nows : List ℕ) : ((nows.foldl tcpTick t).block i).used = (t.block i).used := by
  induction nows generalizing t with
  | nil => rfl
  | cons now nows ih =>
    rw [foldl_cons, ih]
    simp only [tcpTick]
    split <;> rfl

theorem slot_some (h : t.slot = some i) : (t.block i).used = false := by
  simpa using find?_some h

theorem lookup_used {src dst sport dport : ℕ} (h : t.lookup src dst sport dport = some i) :
    (t.block i).used := by
  rcases Option.or_eq_some_iff.mp h with h | ⟨-, h⟩
  · simp_all
  · have := find?_some h
    simp_all

namespace Childless

variable (h : t.Childless)
include h

theorem owned : t.Owned := by
  refine ⟨fun i hi => ?_, fun i => (h.used i).mpr, fun l hl i hi => ?_⟩
  · obtain ⟨k, hk, hEq⟩ := mem_iff_getElem.mp ((h.used i).mp hi)
    refine ⟨.socket k, by simp [Owns, hk, hEq], fun o ho => ?_⟩
    cases o with
    | socket j =>
      obtain ⟨hj, hij⟩ := List.getElem?_eq_some_iff.mp ho
      rw [h.nodup.getElem_inj_iff.mp (hij.trans hEq.symm)]
    | queue l j => simp [Owns, (h.alone l ho.1).2] at ho
    | protocol =>
      obtain ⟨-, nows, hFree⟩ := ho
      rw [used_ticks, hi] at hFree
      cases hFree
  · simp [(h.alone l hl).2] at hi

theorem set {b : Block} {l : List ℕ} (hl : l.Nodup) (hi : b.used ↔ i ∈ l)
    (hSame : ∀ j ≠ i, j ∈ l ↔ j ∈ t.sockets) (hAlone : b.used → b.parent = none ∧ b.acceptQ = []) :
    Childless { t.modify i fun _ => b with sockets := l } := by
  refine ⟨fun j => ?_, hl, fun j => ?_⟩
  · rcases eq_or_ne j i with rfl | hj
    · simpa [modify] using hi
    · simp [modify, hj, h.used, hSame j hj]
  · rcases eq_or_ne j i with rfl | hj
    · simpa [modify] using hAlone
    · simpa [modify, hj] using h.alone j

theorem modify {f : Block → Block} (hUsed : (f (t.block i)).used = (t.block i).used)
    (hAlone : (t.block i).used → (f (t.block i)).parent = none ∧ (f (t.block i)).acceptQ = []) :
    (t.modify i f).Childless :=
  h.set h.nodup (by rw [hUsed, h.used]) (fun _ _ => Iff.rfl) fun hb => hAlone (hUsed ▸ hb)

theorem pcbAlloc_none {mem : Bool} {t' : Pool} (hAlloc : t.pcbAlloc mem = (none, t')) :
    t'.Childless := by
  unfold pcbAlloc at hAlloc
  split at hAlloc
  · cases hAlloc
    exact h
  · rename_i i hSlot
    have hFree := slot_some hSlot
    split at hAlloc <;> cases hAlloc
    exact h.modify (by simp [hFree]) (by simp [hFree])

theorem tcpNew (mem : Bool) : (t.tcpNew mem).Childless := by
  unfold Pool.tcpNew
  split
  · exact h.pcbAlloc_none ‹_›
  · rename_i i t' hAlloc
    unfold pcbAlloc at hAlloc
    split at hAlloc
    · cases hAlloc
    rename_i hSlot
    have hFree := slot_some hSlot
    split at hAlloc <;> cases hAlloc
    have hNot : i ∉ t.sockets := fun hi => by simp [(h.used i).mpr hi] at hFree
    exact h.set (nodup_cons.mpr ⟨hNot, h.nodup⟩) (by simp) (fun j hj => by simp [Pool.modify, hj])
      (by simp)

theorem call {p : ℕ} (hp : p ∈ t.sockets) (c : Call) : (t.call p c).Childless := by
  obtain ⟨hParent, hQueue⟩ := h.alone p ((h.used p).mpr hp)
  have hPort : ∀ {eph : ℕ} {b : Block}, (t.block p).withPort eph = some b →
      b.used = (t.block p).used ∧ b.parent = none ∧ b.acceptQ = [] := by
    intro eph b hb
    unfold Block.withPort at hb
    split at hb
    · cases hb
      exact ⟨rfl, hParent, hQueue⟩
    · split at hb <;> cases hb
      exact ⟨rfl, hParent, hQueue⟩
  cases c with
  | bind ip port isLocal =>
    simp only [Pool.call]
    split
    · exact h
    · exact h.modify rfl fun _ => ⟨hParent, hQueue⟩
  | listen eph =>
    simp only [Pool.call]
    split
    · exact h
    split
    · exact h
    · rename_i b hb
      obtain ⟨hUsed, hAlone⟩ := hPort hb
      exact h.modify hUsed fun _ => hAlone
  | connect ip port eph route iss now =>
    simp only [Pool.call]
    split
    · exact h
    split
    · exact h
    · rename_i b hb
      obtain ⟨hUsed, hAlone⟩ := hPort hb
      cases route <;> exact h.modify hUsed fun _ => hAlone
  | accept => simpa [Pool.call, hQueue] using h
  | destroy =>
    simp only [Pool.call, hParent]
    refine h.set (h.nodup.erase p) ?_ (fun j hj => ?_) (by simp)
    · simp [h.nodup.mem_erase_iff]
    · simp [h.nodup.mem_erase_iff, hj]

theorem exec {op : PoolOp} (hNo : ¬t.TakesSyn op) : (t.exec op).Childless := by
  cases op with
  | new mem => exact h.tcpNew mem
  | call p c =>
    simp only [Pool.exec]
    split
    · exact h.call ‹_› c
    · exact h
  | tick now =>
    have hSame : ∀ i, ((t.tcpTick now).block i).used = (t.block i).used ∧
        ((t.tcpTick now).block i).parent = (t.block i).parent ∧
        ((t.tcpTick now).block i).acceptQ = (t.block i).acceptQ := fun i => by
      simp only [tcpTick]
      split <;> simp
    exact ⟨fun i => by rw [Pool.exec, (hSame i).1]; exact h.used i, h.nodup,
      fun i hi => by rw [Pool.exec, (hSame i).1] at hi; rw [Pool.exec, (hSame i).2.1,
        (hSame i).2.2]; exact h.alone i hi⟩
  | input src dst sport dport seg iss now mem =>
    simp only [Pool.exec, Pool.tcpInput]
    split
    · exact h
    rename_i i hLook
    split
    · rename_i hListen
      split
      · exact h
      unfold synArrived
      split
      · exact h.pcbAlloc_none ‹_›
      · rename_i c t' hAlloc
        refine absurd ⟨⟨i, hLook, hListen⟩, ?_, ?_⟩ hNo
        · unfold pcbAlloc at hAlloc
          split at hAlloc
          · cases hAlloc
          split at hAlloc
          · simp_all
          · cases hAlloc
        · intro hFull
          simp [pcbAlloc, hFull] at hAlloc
    · have hAlone := h.alone i (lookup_used hLook)
      have hPcb := h.modify (i := i)
        (f := fun b => { b with pcb := ((t.block i).pcb.tcpInput seg iss now).1 }) rfl
        fun _ => hAlone
      split
      · simpa [enqueue, Pool.modify, hAlone.1] using hPcb
      · exact hPcb

theorem not_owned {op : PoolOp} (hSyn : t.TakesSyn op) : ¬(t.exec op).Owned := by
  cases op with
  | new mem => exact hSyn.elim
  | call p c => exact hSyn.elim
  | tick now => exact hSyn.elim
  | input src dst sport dport seg iss now mem =>
    obtain ⟨⟨l, hLook, hListen⟩, hFlags, hRoom⟩ := hSyn
    obtain ⟨c, hSlot⟩ := Option.ne_none_iff_exists'.mp hRoom
    have hFree := slot_some hSlot
    simp only [Bool.and_eq_true, Bool.not_eq_true'] at hFlags
    simp only [Pool.exec, Pool.tcpInput, hLook, hListen, synArrived, pcbAlloc, hSlot, hFlags]
    simp only [if_true, Bool.false_or, Bool.not_true, Bool.false_eq_true, if_false]
    intro hOwned
    obtain ⟨o, ho, -⟩ := hOwned.once c (by simp [Pool.modify])
    cases o with
    | socket k =>
      have hc : c ∈ t.sockets := mem_of_getElem? ho
      simp [(h.used c).mpr hc] at hFree
    | queue q k =>
      rcases eq_or_ne q c with rfl | hq
      · simp [Owns, Pool.modify] at ho
      · simp only [Owns, Pool.modify, Function.update_of_ne hq] at ho
        simp [(h.alone q ho.1).2] at ho
    | protocol =>
      have hState : (Pcb.synArrived seg iss now).1.state = .synRcvd := by
        unfold Pcb.synArrived Pcb.mssFromOptions
        cases seg.mss <;> rfl
      simp [Owns, Pool.modify, hState, Closing] at ho

end Childless

/-- Along a run every step leaves the blocks owned as they must be exactly when no listener takes a
SYN. -/
theorem blocks_owned_iff (ops : List PoolOp) :
    Along Keeps exec boot ops ↔ Along (fun t op => ¬t.TakesSyn op) exec boot ops := by
  have hBoot : boot.Childless := ⟨by simp [boot], nodup_nil, by simp [boot]⟩
  refine along_iff (P := Keeps) (fun t op h => ⟨fun hKeeps hSyn => ?_, fun hNo => ?_⟩)
    (fun t op h => h.exec) hBoot ops
  · exact Childless.not_owned h hSyn hKeeps.1
  · refine ⟨(Childless.exec h hNo).owned, fun p _ _ i hi hParent => ?_⟩
    rw [(h.alone i hi).1] at hParent
    cases hParent

/-- A peer sends a SYN to a listener and resets the connection: the block of the child stays in use,
closed and without a timer, and is in no queue.  The listener is destroyed, and the block is still
not free. -/
theorem embryo_never_freed : let syn : Segment := ⟨7, 0, { syn := true }, 4096, none, []⟩
    let rst : Segment := ⟨8, 0, { rst := true }, 4096, none, []⟩
    let t := [PoolOp.new true, .call 0 (.bind 0 80 true), .call 0 (.listen 0),
      .input 9 5 1000 80 syn 1 0 true, .input 9 5 1000 80 rst 1 0 true].foldl exec boot
    (t.block 1).used ∧ (t.block 1).pcb.state = .closed ∧ (t.block 1).pcb.rtoAt = 0 ∧
    (t.block 1).pcb.twAt = 0 ∧
      1 ∉ t.sockets ∧ (∀ l < tcpMaxPcb, 1 ∉ (t.block l).acceptQ) ∧
      ((t.exec (.call 0 .destroy)).block 1).used := by
  decide +kernel

end Pool

end Gnos.Tcp
