import Gnos.Ipc.Ids
import Gnos.ProofKit.Linked
import Gnos.ProofKit.Runs

/-! Message queues: `sysv_msgsnd` and `sysv_msgrcv` on one queue, by the identifier that
`sysv_msgget` has returned for it.  A queue is a chain of nodes from `head` on with a cached `tail`;
a node is named by the number of the allocation that made it.  The calls end with one pass of their
loops: a call that sleeps gives `wait`. -/

namespace Gnos.Ipc

open ProofKit Function List

variable {p : Caller} {a b : List ℕ} {msgtyp : BitVec 64} {msgsz : ℕ} {noerror nowait : Bool}

def msgMaxSz : ℕ := 8192
def msgqDefBytes : ℕ := 16384

structure MsgNode where
  next : Option ℕ := none
  mtype : ℤ
  data : List (BitVec 8)
  deriving DecidableEq

/-- `msgq_t`.  The counters are natural numbers: every message that `qnum` counts takes a node of
the kernel heap, and `cbytes` stays below `qbytes`. -/
structure MsgQ where
  used : Bool
  perm : Perm
  nodes : ℕ → MsgNode
  /-- The number of nodes that have been allocated. -/
  made : ℕ
  head : Option ℕ
  tail : Option ℕ
  qnum : ℕ
  cbytes : ℕ
  qbytes : ℕ

inductive MsgResult where
  | done
  | got (mtype : ℤ) (data : List (BitVec 8))
  | err (e : Err)
  | wait
  deriving DecidableEq

/-- Whether `msgq_find` stops at a message of type `mtype`; `-msgtyp` is a number of 64 bits. -/
def stopsAt (msgtyp : BitVec 64) (mtype : ℤ) : Bool :=
  if msgtyp = 0 then true
  else if 0 < msgtyp.toInt then mtype = msgtyp.toInt
  else mtype ≤ (-msgtyp).toInt

namespace MsgQ

def next (q : MsgQ) (i : ℕ) : Option ℕ := (q.nodes i).next

/-- The nodes from `head` on. -/
def chain (q : MsgQ) : List ℕ := walk q.next q.made q.head

def msgqFind (q : MsgQ) (msgtyp : BitVec 64) : Option ℕ :=
  q.chain.find? fun i => stopsAt msgtyp (q.nodes i).mtype

def setNext (q : MsgQ) (i : ℕ) (o : Option ℕ) : MsgQ :=
  { q with nodes := Function.update q.nodes i { q.nodes i with next := o } }

/-- `*pp = m->next`, where `pp` is the head or the link of the node before `m`. -/
def bypass (q : MsgQ) (m : ℕ) : MsgQ :=
  if q.head = some m then { q with head := q.next m }
  else
    match q.chain.find? fun r => q.next r = some m with
    | some r => q.setNext r (q.next m)
    | none => q

/-- The cached tail is cleared when its node goes, and when the queue is empty. -/
def clearTail (q : MsgQ) (m : ℕ) : MsgQ :=
  if q.tail = some m ∨ q.head = none then { q with tail := none } else q

def msgqRemove (q : MsgQ) (m : ℕ) : MsgQ :=
  let r := if m ∈ q.chain then (q.bypass m).clearTail m else q
  { r with qnum := q.qnum - 1, cbytes := q.cbytes - (q.nodes m).data.length }

def alloc (q : MsgQ) (mtype : ℤ) (data : List (BitVec 8)) : MsgQ :=
  { q with nodes := Function.update q.nodes q.made ⟨none, mtype, data⟩, made := q.made + 1 }

/-- Node `m` goes behind the tail, or becomes the head when there is no tail. -/
def append (q : MsgQ) (m : ℕ) : MsgQ :=
  match q.tail with
  | some t => { q.setNext t (some m) with tail := some m }
  | none => { q with head := some m, tail := some m }

def link (q : MsgQ) (mtype : ℤ) (data : List (BitVec 8)) : MsgQ :=
  let r := (q.alloc mtype data).append q.made
  { r with qnum := q.qnum + 1, cbytes := q.cbytes + data.length }

/-- One pass of the loop of `sysv_msgsnd`; `mem` is whether `kmalloc` succeeds. -/
def sndPass (q : MsgQ) (mtype : BitVec 64) (data : List (BitVec 8)) (nowait mem : Bool) :
    MsgResult × MsgQ :=
  if q.used = false then (.err .idrm, q)
  else if q.qbytes < q.cbytes + data.length then (if nowait then .err .again else .wait, q)
  else if mem = false then (.err .nomem, q)
  else (.done, q.link mtype.toInt data)

/-- `sysv_msgsnd` up to the end of its first pass; `msgq_at` finds no queue that is not in use. -/
def msgsnd (q : MsgQ) (p : Caller) (mtype : BitVec 64) (data : List (BitVec 8))
    (nowait mem : Bool) : MsgResult × MsgQ :=
  if msgMaxSz < data.length then (.err .inval, q)
  else if mtype.toInt ≤ 0 then (.err .inval, q)
  else if q.used = false then (.err .inval, q)
  else if permitted p q.perm .write = false then (.err .acces, q)
  else if q.qbytes < data.length then (.err .inval, q)
  else q.sndPass mtype data nowait mem

/-- One pass of the loop of `sysv_msgrcv`. -/
def rcvPass (q : MsgQ) (msgsz : ℕ) (msgtyp : BitVec 64) (noerror nowait : Bool) :
    MsgResult × MsgQ :=
  if q.used = false then (.err .idrm, q)
  else
    match q.msgqFind msgtyp with
    | some m =>
      if msgsz < (q.nodes m).data.length ∧ noerror = false then (.err .toobig, q)
      else (.got (q.nodes m).mtype ((q.nodes m).data.take msgsz), q.msgqRemove m)
    | none => (if nowait then .err .msg else .wait, q)

def msgrcv (q : MsgQ) (p : Caller) (msgsz : ℕ) (msgtyp : BitVec 64) (noerror nowait : Bool) :
    MsgResult × MsgQ :=
  if q.used = false then (.err .inval, q)
  else if permitted p q.perm .read = false then (.err .acces, q)
  else q.rcvPass msgsz msgtyp noerror nowait

end MsgQ

structure Msg where
  mtype : ℤ
  data : List (BitVec 8)
  deriving DecidableEq

/-- What a queue is for: the messages in the order they were sent. -/
structure Mailbox where
  perm : Perm
  qbytes : ℕ
  msgs : List Msg
  deriving DecidableEq

namespace Mailbox

def setMsgs (b : Mailbox) (l : List Msg) : Mailbox := { b with msgs := l }

def bytes (l : List Msg) : ℕ := (l.map fun m => m.data.length).sum

/-- The messages that a receive may take first: any, one of its type, or one of the lowest type up
to a bound. -/
def wanted (l : List Msg) (msgtyp : BitVec 64) (m : Msg) : Bool :=
  if msgtyp = 0 then true
  else if 0 < msgtyp.toInt then m.mtype = msgtyp.toInt
  else m.mtype ≤ -msgtyp.toInt && l.all fun n => m.mtype ≤ n.mtype

def snd (b : Mailbox) (p : Caller) (mtype : BitVec 64) (data : List (BitVec 8))
    (nowait mem : Bool) : MsgResult × Mailbox :=
  if msgMaxSz < data.length ∨ mtype.toInt ≤ 0 then (.err .inval, b)
  else if permitted p b.perm .write = false then (.err .acces, b)
  else if b.qbytes < data.length then (.err .inval, b)
  else if b.qbytes < bytes b.msgs + data.length then (if nowait then .err .again else .wait, b)
  else if mem = false then (.err .nomem, b)
  else (.done, b.setMsgs (b.msgs ++ [⟨mtype.toInt, data⟩]))

def rcv (b : Mailbox) (p : Caller) (msgsz : ℕ) (msgtyp : BitVec 64) (noerror nowait : Bool) :
    MsgResult × Mailbox :=
  if permitted p b.perm .read = false then (.err .acces, b)
  else
    match b.msgs.find? (wanted b.msgs msgtyp) with
    | none => (if nowait then .err .msg else .wait, b)
    | some m =>
      if msgsz < m.data.length ∧ noerror = false then (.err .toobig, b)
      else
        (.got m.mtype (m.data.take msgsz), b.setMsgs (b.msgs.eraseP (wanted b.msgs msgtyp)))

end Mailbox

inductive MsgOp where
  | snd (p : Caller) (mtype : BitVec 64) (data : List (BitVec 8)) (nowait mem : Bool)
  | rcv (p : Caller) (msgsz : ℕ) (msgtyp : BitVec 64) (noerror nowait : Bool)

/-- A send that is refused for its arguments. -/
def MsgOp.Refused : MsgOp → Prop
  | .snd _ mtype data _ _ => msgMaxSz < data.length ∨ mtype.toInt ≤ 0
  | .rcv .. => False

def MsgQ.run (q : MsgQ) : MsgOp → MsgResult × MsgQ
  | .snd p mtype data nowait mem => q.msgsnd p mtype data nowait mem
  | .rcv p msgsz msgtyp noerror nowait => q.msgrcv p msgsz msgtyp noerror nowait

def Mailbox.run (b : Mailbox) : MsgOp → MsgResult × Mailbox
  | .snd p mtype data nowait mem => b.snd p mtype data nowait mem
  | .rcv p msgsz msgtyp noerror nowait => b.rcv p msgsz msgtyp noerror nowait

namespace MsgQ

def msg (q : MsgQ) (i : ℕ) : Msg := ⟨(q.nodes i).mtype, (q.nodes i).data⟩

def contents (q : MsgQ) : List Msg := q.chain.map q.msg

/-- A send finds a tail or an empty queue; a receive with a negative type finds its first match to
be of the lowest type. -/
def Sound (q : MsgQ) : MsgOp → Prop
  | .snd .. => q.tail ≠ none ∨ q.head = none
  | .rcv _ _ msgtyp _ _ => msgtyp.toInt < 0 → msgtyp ≠ BitVec.intMin 64 ∧
      ∀ m ∈ q.contents.find? fun m => m.mtype ≤ -msgtyp.toInt, ∀ n ∈ q.contents, m.mtype ≤ n.mtype

instance (q : MsgQ) : (op : MsgOp) → Decidable (q.Sound op)
  | .snd .. => inferInstanceAs (Decidable (_ ∨ _))
  | .rcv .. => inferInstanceAs (Decidable (_ → _ ∧ _))

end MsgQ

/-- A queue, the mailbox that the same calls have made, and the messages that were sent and those
that were taken out. -/
structure MsgTrack where
  q : MsgQ
  box : Mailbox
  sent : List Msg
  taken : List Msg

namespace MsgTrack

def exec (t : MsgTrack) (op : MsgOp) : MsgTrack where
  q := (t.q.run op).2
  box := (t.box.run op).2
  sent := match op, (t.q.run op).1 with
    | .snd _ mtype data _ _, .done => t.sent ++ [⟨mtype.toInt, data⟩]
    | _, _ => t.sent
  taken := match op, (t.q.run op).1 with
    | .rcv _ _ msgtyp _ _, .got _ _ => t.taken ++ ((t.q.msgqFind msgtyp).map t.q.msg).toList
    | _, _ => t.taken

/-- What `sysv_msgget` leaves in a queue, but for what the slot says. -/
def ofSlot (used : Bool) (perm : Perm) (nodes : ℕ → MsgNode) : MsgTrack where
  q := {
    used := used
    perm := perm
    nodes := nodes
    made := 0
    head := none
    tail := none
    qnum := 0
    cbytes := 0
    qbytes := msgqDefBytes }
  box := ⟨perm, msgqDefBytes, []⟩
  sent := []
  taken := []

/-- A queue that `sysv_msgget` has made. -/
def Made (t : MsgTrack) : Prop :=
  ∃ s nodes, Tables.Fresh .msg s ∧ t = ofSlot s.used s.perm nodes

/-- A queue without messages, in use or not. -/
def Start (t : MsgTrack) : Prop := ∃ used perm nodes, t = ofSlot used perm nodes

/-- The states that sound calls reach on a queue in use. -/
def Reached : MsgTrack → Prop := Reaches Start (fun t op => t.q.used ∧ t.q.Sound op) exec

/-- The queue holds the messages of the mailbox, its counters are right, and no message was lost or
taken twice. -/
structure Right (t : MsgTrack) : Prop where
  contents : t.q.contents = t.box.msgs
  qnum : t.q.qnum = t.box.msgs.length
  cbytes : t.q.cbytes = Mailbox.bytes t.box.msgs
  conserved : t.sent.Perm (t.taken ++ t.box.msgs)

/-- The call gives what it gives on the mailbox. -/
def Answers (t : MsgTrack) (op : MsgOp) : Prop := (t.q.run op).1 = (t.box.run op).1

end MsgTrack

namespace MsgQ

/-- The nodes of the queue are those of `l`; the cached tail may have been cleared. -/
structure Chained (q : MsgQ) (l : List ℕ) : Prop where
  linked : Linked q.next l
  nodup : l.Nodup
  head : q.head = l.head?
  made : ∀ i ∈ l, i < q.made
  tail : q.tail = none ∨ q.tail = l.getLast?

structure Ordered (q : MsgQ) (l : List ℕ) : Prop extends Chained q l where
  qnum : q.qnum = l.length
  cbytes : q.cbytes = (l.map fun i => (q.nodes i).data.length).sum

variable {q : MsgQ} {l : List ℕ} {m : ℕ}

theorem Chained.chain (h : q.Chained l) : q.chain = l := by
  have hLength : l.length ≤ q.made := by
    have hSub : l ⊆ range q.made := fun i hi => mem_range.mpr (h.made i hi)
    simpa using (subperm_of_subset h.nodup hSub).length_le
  rw [MsgQ.chain, h.head, h.linked.walk_eq hLength]

theorem Chained.contents (h : q.Chained l) : q.contents = l.map q.msg := by
  rw [MsgQ.contents, h.chain]

theorem Ordered.bytes (h : q.Ordered l) : Mailbox.bytes q.contents = q.cbytes := by
  rw [h.contents, h.cbytes, Mailbox.bytes, map_map]
  rfl

@[simp] theorem next_setNext (q : MsgQ) (i : ℕ) (o : Option ℕ) :
    (q.setNext i o).next = update q.next i o :=
  comp_update MsgNode.next q.nodes i _

@[simp] theorem msg_setNext (q : MsgQ) (i : ℕ) (o : Option ℕ) : (q.setNext i o).msg = q.msg :=
  (comp_update (fun n : MsgNode => Msg.mk n.mtype n.data) q.nodes i _).trans
    (update_eq_self i q.msg)

theorem next_alloc (q : MsgQ) (mtype : ℤ) (data : List (BitVec 8)) :
    (q.alloc mtype data).next = update q.next q.made none :=
  comp_update MsgNode.next q.nodes q.made _

theorem msg_alloc (q : MsgQ) (mtype : ℤ) (data : List (BitVec 8)) :
    (q.alloc mtype data).msg = update q.msg q.made ⟨mtype, data⟩ :=
  comp_update (fun n : MsgNode => Msg.mk n.mtype n.data) q.nodes q.made _

theorem append_spec (r : MsgQ) (hTail : r.tail = l.getLast?) (hHead : r.head = l.head?) (i : ℕ) :
    (r.append i).next = updateAt r.next l.getLast? (some i) ∧ (r.append i).msg = r.msg ∧
      (r.append i).head = (l ++ [i]).head? ∧ (r.append i).tail = some i ∧
      (r.append i).made = r.made := by
  unfold append
  rcases eq_nil_or_concat l with rfl | ⟨a, t, rfl⟩
  · rw [hTail]
    exact ⟨rfl, rfl, rfl, rfl, rfl⟩
  · have hLast : (a ++ [t]).getLast? = some t := getLast?_concat
    rw [concat_eq_append] at *
    rw [hTail, hLast]
    refine ⟨next_setNext r t (some i), msg_setNext r t (some i), ?_, rfl, rfl⟩
    show r.head = _
    rw [hHead]
    cases a <;> rfl

theorem Chained.link (h : q.Chained l) (hTail : q.tail ≠ none ∨ q.head = none) (mtype : ℤ)
    (data : List (BitVec 8)) :
    (q.link mtype data).Chained (l ++ [q.made]) ∧ (∀ i ∈ l, (q.link mtype data).msg i = q.msg i) ∧
      (q.link mtype data).msg q.made = ⟨mtype, data⟩ := by
  have hFresh : q.made ∉ l := fun hMem => Nat.lt_irrefl _ (h.made _ hMem)
  have hLast : q.tail = l.getLast? := by
    rcases h.tail with hNone | hLast
    · rcases hTail with hSome | hEmpty
      · exact absurd hNone hSome
      · rw [h.head, head?_eq_none_iff] at hEmpty
        rw [hNone, hEmpty]
        rfl
    · exact hLast
  obtain ⟨hNext, hMsg, hHead, hNewTail, hMade⟩ :=
    append_spec (q.alloc mtype data) hLast h.head q.made
  rw [next_alloc] at hNext
  rw [msg_alloc] at hMsg
  refine ⟨⟨?_, ?_, hHead, ?_, .inr ?_⟩, fun i hi => ?_, ?_⟩
  · show Linked ((q.alloc mtype data).append q.made).next _
    rw [hNext]
    exact h.linked.pushBack h.nodup hFresh
  · rw [← concat_eq_append]
    exact h.nodup.concat hFresh
  · intro i hi
    show i < ((q.alloc mtype data).append q.made).made
    rw [hMade]
    rcases mem_append.mp hi with hi | hi
    · exact Nat.lt_succ_of_lt (h.made i hi)
    · rw [mem_singleton.mp hi]
      exact Nat.lt_succ_self _
  · show ((q.alloc mtype data).append q.made).tail = _
    rw [hNewTail, getLast?_concat]
  · show ((q.alloc mtype data).append q.made).msg i = _
    rw [hMsg, update_of_ne (ne_of_mem_of_not_mem hi hFresh)]
  · show ((q.alloc mtype data).append q.made).msg q.made = _
    rw [hMsg, update_self]

theorem Ordered.link (h : q.Ordered l) (hTail : q.tail ≠ none ∨ q.head = none) (mtype : ℤ)
    (data : List (BitVec 8)) : (q.link mtype data).Ordered (l ++ [q.made]) ∧
      (q.link mtype data).contents = q.contents ++ [⟨mtype, data⟩] := by
  obtain ⟨hChained, hOld, hNew⟩ := h.toChained.link hTail mtype data
  refine ⟨⟨hChained, ?_, ?_⟩, ?_⟩
  · show q.qnum + 1 = _
    rw [h.qnum, length_append, length_singleton]
  · have hSum : l.map (fun i => ((q.link mtype data).nodes i).data.length) =
        l.map fun i => (q.nodes i).data.length :=
      map_congr_left fun i hi => congrArg (·.data.length) (hOld i hi)
    have hLength : ((q.link mtype data).nodes q.made).data.length = data.length :=
      congrArg (·.data.length) hNew
    show q.cbytes + data.length = _
    rw [map_append, sum_append, hSum, ← h.cbytes, map_singleton, sum_singleton, hLength]
  · rw [hChained.contents, h.contents, map_append, map_singleton, hNew, map_congr_left hOld]

theorem Chained.find_before {r : ℕ} (h : q.Chained (a ++ r :: m :: b)) :
    (q.chain.find? fun i => q.next i = some m) = some r := by
  rw [h.chain]
  exact h.linked.find_before h.nodup

theorem Chained.bypass (h : q.Chained (a ++ m :: b)) :
    Linked (q.bypass m).next (a ++ b) ∧ (q.bypass m).head = (a ++ b).head? ∧
      (q.bypass m).msg = q.msg ∧ (q.bypass m).tail = q.tail ∧ (q.bypass m).made = q.made := by
  have hm : q.next m = b.head? := h.linked a m b rfl
  unfold MsgQ.bypass
  rcases eq_nil_or_concat a with rfl | ⟨a, r, rfl⟩
  · have hHead : q.head = some m := h.head
    rw [if_pos hHead]
    exact ⟨h.linked.tail, hm, rfl, rfl, rfl⟩
  · rw [concat_eq_append] at *
    have hEq : (a ++ [r]) ++ m :: b = a ++ r :: m :: b := by simp
    have hEq' : (a ++ [r]) ++ b = a ++ r :: b := by simp
    rw [hEq] at h
    have hHead : q.head ≠ some m := by
      rw [h.head]
      intro hFirst
      have hNodup := h.nodup
      cases a with
      | nil =>
        obtain rfl : r = m := Option.some.inj hFirst
        simp at hNodup
      | cons c a =>
        obtain rfl : c = m := Option.some.inj hFirst
        simp at hNodup
    rw [if_neg hHead, h.find_before, hEq', hm]
    refine ⟨?_, ?_, msg_setNext q r _, rfl, rfl⟩
    · rw [next_setNext]
      exact h.linked.unlink h.nodup
    · show q.head = _
      rw [h.head]
      cases a <;> rfl

theorem Chained.remove (h : q.Chained (a ++ m :: b)) :
    (q.msgqRemove m).Chained (a ++ b) ∧ (q.msgqRemove m).msg = q.msg := by
  have hMem : m ∈ q.chain := by
    rw [h.chain]
    simp
  obtain ⟨hLinked, hHead, hMsg, hTail, hMade⟩ := h.bypass
  have hSub : (a ++ b).Sublist (a ++ m :: b) := by simp
  -- The cached tail is cleared or still names the last node.
  have hCleared : let q' := (q.bypass m).clearTail m
      q'.next = (q.bypass m).next ∧ q'.msg = q.msg ∧ q'.head = (q.bypass m).head ∧
      q'.made = q.made ∧
        (q'.tail = none ∨ q'.tail = (a ++ b).getLast?) := by
    unfold clearTail
    split_ifs with hKept
    · exact ⟨rfl, hMsg, rfl, hMade, .inl rfl⟩
    · refine ⟨rfl, hMsg, rfl, hMade, ?_⟩
      rw [not_or, hTail] at hKept
      rw [hTail]
      rcases h.tail with hNone | hLast
      · exact .inl hNone
      · right
        rw [hLast] at hKept ⊢
        rcases eq_nil_or_concat b with rfl | ⟨b, z, rfl⟩
        · exact absurd getLast?_concat hKept.1
        · rw [concat_eq_append, ← cons_append, ← append_assoc, ← append_assoc,
            getLast?_concat, getLast?_concat]
  obtain ⟨hNext', hMsg', hHead', hMade', hTail'⟩ := hCleared
  unfold msgqRemove
  rw [if_pos hMem]
  refine ⟨⟨?_, h.nodup.sublist hSub, hHead'.trans hHead, ?_, hTail'⟩, hMsg'⟩
  · show Linked ((q.bypass m).clearTail m).next _
    rw [hNext']
    exact hLinked
  · intro i hi
    rw [hMade']
    exact h.made i (hSub.subset hi)

theorem Ordered.remove (h : q.Ordered (a ++ m :: b)) :
    (q.msgqRemove m).Ordered (a ++ b) ∧ (q.msgqRemove m).contents = (a ++ b).map q.msg := by
  obtain ⟨hChained, hMsg⟩ := h.toChained.remove
  refine ⟨⟨hChained, ?_, ?_⟩, by rw [hChained.contents, hMsg]⟩
  · show q.qnum - 1 = _
    rw [h.qnum]
    simp only [length_append, length_cons]
    omega
  · have hData : ∀ i, ((q.msgqRemove m).nodes i).data = (q.nodes i).data := fun i =>
      congrArg Msg.data (congrFun hMsg i)
    show q.cbytes - _ = _
    simp only [hData]
    rw [h.cbytes]
    simp only [map_append, map_cons, sum_append, sum_cons]
    omega

theorem link_frame (q : MsgQ) (mtype : ℤ) (data : List (BitVec 8)) :
    (q.link mtype data).perm = q.perm ∧ (q.link mtype data).qbytes = q.qbytes := by
  unfold link append
  cases hTail : (q.alloc mtype data).tail <;> exact ⟨rfl, rfl⟩

theorem remove_frame (q : MsgQ) (m : ℕ) :
    (q.msgqRemove m).perm = q.perm ∧ (q.msgqRemove m).qbytes = q.qbytes := by
  have hBypass : (q.bypass m).perm = q.perm ∧ (q.bypass m).qbytes = q.qbytes := by
    unfold bypass
    split
    · exact ⟨rfl, rfl⟩
    · split <;> exact ⟨rfl, rfl⟩
  unfold msgqRemove
  split
  · unfold clearTail
    split <;> exact hBypass
  · exact ⟨rfl, rfl⟩

/-- A type that is neither zero nor positive is negative, and asks for the types up to its
negation. -/
theorem stopsAt_of_neg (hZero : msgtyp ≠ 0) (hPos : ¬0 < msgtyp.toInt) :
    msgtyp.toInt < 0 ∧ (msgtyp ≠ BitVec.intMin 64 →
      ∀ n, stopsAt msgtyp n = decide (n ≤ -msgtyp.toInt)) := by
  have hNe : msgtyp.toInt ≠ 0 := fun hEq => hZero (BitVec.toInt_inj.mp (by rw [hEq]; rfl))
  refine ⟨by omega, fun hMin n => ?_⟩
  unfold stopsAt
  rw [if_neg hZero, if_neg hPos, BitVec.toInt_neg_of_ne_intMin hMin]

theorem stopsAt_of_wanted {box : List Msg} {n : Msg}
    (hRange : msgtyp.toInt < 0 → msgtyp ≠ BitVec.intMin 64) (h : Mailbox.wanted box msgtyp n) :
    stopsAt msgtyp n.mtype := by
  unfold Mailbox.wanted at h
  split_ifs at h with hZero hPos
  · exact if_pos hZero
  · unfold stopsAt
    rwa [if_neg hZero, if_pos hPos]
  · obtain ⟨hNeg, hStops⟩ := stopsAt_of_neg hZero hPos
    rw [hStops (hRange hNeg)]
    exact (Bool.and_eq_true_iff.mp h).1

theorem wanted_of_first {box a b : List Msg} {n : Msg} (hBox : box = a ++ n :: b)
    (hBefore : ∀ k ∈ a, stopsAt msgtyp k.mtype = false) (hStop : stopsAt msgtyp n.mtype)
    (hSound : msgtyp.toInt < 0 → msgtyp ≠ BitVec.intMin 64 ∧
      ∀ m ∈ box.find? fun m => m.mtype ≤ -msgtyp.toInt, ∀ n ∈ box, m.mtype ≤ n.mtype) :
    Mailbox.wanted box msgtyp n := by
  unfold Mailbox.wanted
  split_ifs with hZero hPos
  · rfl
  · unfold stopsAt at hStop
    rwa [if_neg hZero, if_pos hPos] at hStop
  · obtain ⟨hNeg, hStops⟩ := stopsAt_of_neg hZero hPos
    obtain ⟨hMin, hLowest⟩ := hSound hNeg
    simp only [hStops hMin] at hBefore hStop
    have hFind : (box.find? fun m => m.mtype ≤ -msgtyp.toInt) = some n :=
      find?_eq_some_iff_append.mpr ⟨hStop, a, b, hBox, fun k hk => by rw [hBefore k hk]; rfl⟩
    rw [Bool.and_eq_true, all_eq_true]
    exact ⟨hStop, fun k hk => decide_eq_true (hLowest n hFind k hk)⟩

theorem Ordered.msgqFind (h : q.Ordered l)
    (hSound : q.Sound (.rcv p msgsz msgtyp noerror nowait)) :
    (q.msgqFind msgtyp = none ∧ q.contents.find? (Mailbox.wanted q.contents msgtyp) = none) ∨
      ∃ a m b, l = a ++ m :: b ∧ q.msgqFind msgtyp = some m ∧
        q.contents.find? (Mailbox.wanted q.contents msgtyp) = some (q.msg m) ∧
        q.contents.eraseP (Mailbox.wanted q.contents msgtyp) = (a ++ b).map q.msg := by
  have hRange : msgtyp.toInt < 0 → msgtyp ≠ BitVec.intMin 64 := fun hNeg => (hSound hNeg).1
  have hWanted : ∀ n, stopsAt msgtyp n.mtype = false →
      Mailbox.wanted q.contents msgtyp n = false := by
    intro n hStops
    by_contra hTrue
    rw [Bool.not_eq_false] at hTrue
    rw [stopsAt_of_wanted hRange hTrue] at hStops
    cases hStops
  cases hFind : q.msgqFind msgtyp with
  | none =>
    refine .inl ⟨rfl, find?_eq_none.mpr fun n hn => ?_⟩
    rw [h.contents] at hn
    obtain ⟨i, hi, rfl⟩ := mem_map.mp hn
    unfold MsgQ.msgqFind at hFind
    rw [h.chain, find?_eq_none] at hFind
    rw [hWanted _ (Bool.eq_false_iff.mpr (hFind i hi))]
    exact Bool.false_ne_true
  | some m =>
    unfold MsgQ.msgqFind at hFind
    rw [h.chain, find?_eq_some_iff_append] at hFind
    obtain ⟨hStop, a, b, rfl, hBefore⟩ := hFind
    have hContents : q.contents = a.map q.msg ++ q.msg m :: b.map q.msg := by
      rw [h.contents, map_append, map_cons]
    have hBefore' : ∀ k ∈ a.map q.msg, stopsAt msgtyp k.mtype = false := by
      intro k hk
      obtain ⟨i, hi, rfl⟩ := mem_map.mp hk
      show stopsAt msgtyp (q.nodes i).mtype = false
      simpa using hBefore i hi
    have hFirst := wanted_of_first hContents hBefore' hStop hSound
    have hNone : ∀ k ∈ a.map q.msg, ¬Mailbox.wanted q.contents msgtyp k := fun k hk =>
      Bool.eq_false_iff.mp (hWanted k (hBefore' k hk))
    refine .inr ⟨a, m, b, rfl, rfl, ?_, ?_⟩
    · rw [find?_eq_some_iff_append]
      refine ⟨hFirst, a.map q.msg, b.map q.msg, hContents, fun k hk => ?_⟩
      rw [hWanted k (hBefore' k hk)]
      rfl
    · generalize Mailbox.wanted q.contents msgtyp = w at hFirst hNone ⊢
      rw [hContents, eraseP_append_right _ hNone, eraseP_cons_of_pos hFirst, map_append]

theorem run_of_unused (hUsed : q.used = false) (op : MsgOp) : q.run op = (.err .inval, q) := by
  cases op with
  | snd p mtype data nowait mem =>
    unfold MsgQ.run MsgQ.msgsnd
    dsimp only
    rw [if_pos hUsed, ite_self, ite_self]
  | rcv p msgsz msgtyp noerror nowait => exact if_pos hUsed

end MsgQ

namespace Mailbox

theorem run_of_refused {b : Mailbox} {op : MsgOp} (h : op.Refused) :
    b.run op = (.err .inval, b) := by
  cases op with
  | snd p mtype data nowait mem => exact if_pos h
  | rcv p msgsz msgtyp noerror nowait => exact h.elim

/-- A mailbox of the default size calls only arguments invalid. -/
theorem refused_of_inval {b : Mailbox} {op : MsgOp} (hSize : b.qbytes = msgqDefBytes)
    (h : (b.run op).1 = .err .inval) : op.Refused := by
  cases op with
  | snd p mtype data nowait mem =>
    unfold Mailbox.run Mailbox.snd at h
    dsimp only at h
    split_ifs at h with hArgs hPerm hBig
    all_goals first | exact hArgs | cases h
    unfold MsgOp.Refused
    unfold msgqDefBytes at hSize
    unfold msgMaxSz
    omega
  | rcv p msgsz msgtyp noerror nowait =>
    unfold Mailbox.run Mailbox.rcv at h
    dsimp only at h
    split at h
    · cases h
    split at h
    · split at h <;> cases h
    · split at h <;> cases h

end Mailbox

namespace MsgTrack

/-- The queue and the mailbox agree, and every message that was sent is in one place. -/
structure Agrees (t : MsgTrack) : Prop where
  ordered : ∃ l, t.q.Ordered l
  perm : t.q.perm = t.box.perm
  qbytes : t.q.qbytes = t.box.qbytes
  contents : t.q.contents = t.box.msgs
  conserved : t.sent.Perm (t.taken ++ t.q.contents)

variable {t : MsgTrack}

/-- A call that puts in and takes out nothing changes nothing on either side. -/
theorem exec_of_quiet {op : MsgOp} {r : MsgResult} (hr : r ≠ .done ∧ ∀ n d, r ≠ .got n d)
    (hq : t.q.run op = (r, t.q)) (hBox : t.box.run op = (r, t.box)) : t.exec op = t := by
  unfold exec
  rw [hq, hBox]
  cases op <;> cases r <;> first | rfl | exact absurd rfl hr.1 | exact absurd rfl (hr.2 _ _)

theorem Agrees.stay (h : t.Agrees) (op : MsgOp) (r : MsgResult)
    (hr : r ≠ .done ∧ ∀ n d, r ≠ .got n d) (hq : t.q.run op = (r, t.q))
    (hBox : t.box.run op = (r, t.box)) : t.Answers op ∧ (t.exec op).Agrees := by
  rw [exec_of_quiet hr hq hBox, Answers, hq, hBox]
  exact ⟨rfl, h⟩

theorem Agrees.snd_cases (h : t.Agrees) (hUse : t.q.used) (p : Caller) (mtype : BitVec 64)
    (data : List (BitVec 8)) (nowait mem : Bool) :
    (∃ r, (r ≠ .done ∧ ∀ n d, r ≠ .got n d) ∧ t.q.msgsnd p mtype data nowait mem = (r, t.q) ∧
      t.box.snd p mtype data nowait mem = (r, t.box)) ∨
      t.q.msgsnd p mtype data nowait mem = (.done, t.q.link mtype.toInt data) ∧
        t.box.snd p mtype data nowait mem =
          (.done, t.box.setMsgs (t.q.contents ++ [⟨mtype.toInt, data⟩])) := by
  obtain ⟨l, hOrdered⟩ := h.ordered
  have hUsed : ¬t.q.used = false := by
    rw [hUse]
    exact Bool.noConfusion
  unfold MsgQ.msgsnd MsgQ.sndPass Mailbox.snd
  rw [if_neg hUsed, if_neg hUsed, ← h.perm, ← h.qbytes, ← h.contents, hOrdered.bytes]
  by_cases hSize : msgMaxSz < data.length
  · rw [if_pos hSize, if_pos (.inl hSize)]
    exact .inl ⟨_, by simp, rfl, rfl⟩
  rw [if_neg hSize]
  by_cases hType : mtype.toInt ≤ 0
  · rw [if_pos hType, if_pos (.inr hType)]
    exact .inl ⟨_, by simp, rfl, rfl⟩
  rw [if_neg hType, if_neg (not_or.mpr ⟨hSize, hType⟩)]
  by_cases hPerm : permitted p t.q.perm .write = false
  · rw [if_pos hPerm, if_pos hPerm]
    exact .inl ⟨_, by simp, rfl, rfl⟩
  rw [if_neg hPerm, if_neg hPerm]
  by_cases hBig : t.q.qbytes < data.length
  · rw [if_pos hBig, if_pos hBig]
    exact .inl ⟨_, by simp, rfl, rfl⟩
  rw [if_neg hBig, if_neg hBig]
  by_cases hFull : t.q.qbytes < t.q.cbytes + data.length
  · rw [if_pos hFull, if_pos hFull]
    exact .inl ⟨_, by cases nowait <;> simp, rfl, rfl⟩
  rw [if_neg hFull, if_neg hFull]
  by_cases hMem : mem = false
  · rw [if_pos hMem, if_pos hMem]
    exact .inl ⟨_, by simp, rfl, rfl⟩
  · rw [if_neg hMem, if_neg hMem]
    exact .inr ⟨rfl, rfl⟩

theorem Agrees.snd (h : t.Agrees) (hUse : t.q.used) {mtype : BitVec 64} {data : List (BitVec 8)}
    {nowait mem : Bool} (hSound : t.q.Sound (.snd p mtype data nowait mem)) :
    t.Answers (.snd p mtype data nowait mem) ∧ (t.exec (.snd p mtype data nowait mem)).Agrees := by
  rcases h.snd_cases hUse p mtype data nowait mem with ⟨r, hr, hq, hBox⟩ | ⟨hq, hBox⟩
  · exact h.stay (.snd ..) r hr hq hBox
  · obtain ⟨l, hOrdered⟩ := h.ordered
    obtain ⟨hLink, hContents⟩ := hOrdered.link hSound mtype.toInt data
    obtain ⟨hPerm, hSize⟩ := MsgQ.link_frame t.q mtype.toInt data
    refine ⟨(congrArg Prod.fst hq).trans (congrArg Prod.fst hBox).symm, ?_⟩
    unfold exec MsgQ.run Mailbox.run
    dsimp only
    rw [hq, hBox]
    refine ⟨⟨_, hLink⟩, hPerm.trans h.perm, hSize.trans h.qbytes, hContents, ?_⟩
    rw [hContents, ← append_assoc]
    exact h.conserved.append_right _

theorem Agrees.rcv (h : t.Agrees) (hUse : t.q.used)
    (hSound : t.q.Sound (.rcv p msgsz msgtyp noerror nowait)) :
    t.Answers (.rcv p msgsz msgtyp noerror nowait) ∧
      (t.exec (.rcv p msgsz msgtyp noerror nowait)).Agrees := by
  obtain ⟨l, hOrdered⟩ := h.ordered
  have hUsed : ¬t.q.used = false := by
    rw [hUse]
    exact Bool.noConfusion
  have hStay := h.stay (.rcv p msgsz msgtyp noerror nowait)
  by_cases hPerm : permitted p t.q.perm .read = false
  · refine hStay _ (by simp) ((if_neg hUsed).trans (if_pos hPerm)) ?_
    unfold Mailbox.run Mailbox.rcv
    dsimp only
    rw [← h.perm, if_pos hPerm]
  have hq : t.q.msgrcv p msgsz msgtyp noerror nowait = match t.q.msgqFind msgtyp with
      | some m =>
        if msgsz < (t.q.msg m).data.length ∧ noerror = false then (.err .toobig, t.q)
        else (.got (t.q.msg m).mtype ((t.q.msg m).data.take msgsz), t.q.msgqRemove m)
      | none => (if nowait then .err .msg else .wait, t.q) := by
    unfold MsgQ.msgrcv MsgQ.rcvPass
    rw [if_neg hUsed, if_neg hPerm, if_neg hUsed]
    rfl
  have hBox : t.box.rcv p msgsz msgtyp noerror nowait =
      match t.q.contents.find? (Mailbox.wanted t.q.contents msgtyp) with
      | none => (if nowait then .err .msg else .wait, t.box)
      | some m =>
        if msgsz < m.data.length ∧ noerror = false then (.err .toobig, t.box)
        else (.got m.mtype (m.data.take msgsz),
          t.box.setMsgs (t.q.contents.eraseP (Mailbox.wanted t.q.contents msgtyp))) := by
    unfold Mailbox.rcv
    rw [← h.perm, if_neg hPerm, ← h.contents]
  rcases hOrdered.msgqFind hSound with ⟨hFind, hNone⟩ | ⟨a, m, b, rfl, hFind, hSome, hErase⟩
  · rw [hFind] at hq
    rw [hNone] at hBox
    exact hStay _ (by cases nowait <;> simp) hq hBox
  · rw [hFind] at hq
    rw [hSome, hErase] at hBox
    dsimp only at hq hBox
    by_cases hBig : msgsz < (t.q.msg m).data.length ∧ noerror = false
    · rw [if_pos hBig] at hq hBox
      exact hStay _ (by simp) hq hBox
    rw [if_neg hBig] at hq hBox
    obtain ⟨hRemove, hContents⟩ := hOrdered.remove
    obtain ⟨hPerm', hSize⟩ := MsgQ.remove_frame t.q m
    refine ⟨(congrArg Prod.fst hq).trans (congrArg Prod.fst hBox).symm, ?_⟩
    unfold exec MsgQ.run Mailbox.run
    dsimp only
    rw [hq, hBox]
    dsimp only
    rw [hFind]
    refine ⟨⟨_, hRemove⟩, hPerm'.trans h.perm, hSize.trans h.qbytes, hContents, ?_⟩
    have hOld := h.conserved
    rw [hOrdered.contents, map_append, map_cons] at hOld
    rw [hContents, map_append, append_assoc]
    exact hOld.trans (perm_middle.append_left _)

theorem Agrees.exec (h : t.Agrees) {op : MsgOp} (hUse : t.q.used) (hSound : t.q.Sound op) :
    t.Answers op ∧ (t.exec op).Agrees := by
  cases op with
  | snd p mtype data nowait mem => exact h.snd hUse hSound
  | rcv p msgsz msgtyp noerror nowait => exact h.rcv hUse hSound

theorem Start.agrees (h : t.Start) : t.Agrees := by
  obtain ⟨used, perm, nodes, rfl⟩ := h
  refine ⟨⟨[], ⟨linked_nil _, nodup_nil, rfl, by simp [ofSlot], .inl rfl⟩, rfl, rfl⟩, rfl, rfl, rfl,
    ?_⟩
  exact List.Perm.refl _

theorem Reached.agrees (h : t.Reached) : t.Agrees :=
  Reaches.invariant (fun _ hStart => hStart.agrees)
    (fun _ _ hAgrees hGuard => (hAgrees.exec hGuard.1 hGuard.2).2) h

theorem Agrees.right (h : t.Agrees) : t.Right := by
  obtain ⟨l, hOrdered⟩ := h.ordered
  have hContents := h.contents
  refine ⟨hContents, ?_, ?_, ?_⟩
  · rw [← hContents, hOrdered.contents, length_map, hOrdered.qnum]
  · rw [← hContents, hOrdered.bytes]
  · rw [← hContents]
    exact h.conserved

/-- On a queue that is not in use every call fails. -/
theorem answers_iff (hUsed : t.q.used = false) (hSize : t.box.qbytes = msgqDefBytes) (op : MsgOp) :
    t.Answers op ↔ op.Refused := by
  unfold Answers
  rw [MsgQ.run_of_unused hUsed op]
  constructor
  · intro hSame
    exact Mailbox.refused_of_inval hSize hSame.symm
  · intro hRefused
    rw [Mailbox.run_of_refused hRefused]

theorem along_answers_iff (hUsed : t.q.used = false) (hSize : t.box.qbytes = msgqDefBytes)
    (ops : List MsgOp) : (Along Answers exec t ops ↔ ∀ op ∈ ops, op.Refused) ∧
      (Along Answers exec t ops → ops.foldl exec t = t) := by
  have hIff := answers_iff hUsed hSize
  simp only [← hIff]
  exact along_of_fixed (fun op hSame => exec_of_quiet (by simp) (MsgQ.run_of_unused hUsed op)
    (Mailbox.run_of_refused ((hIff op).mp hSame))) ops

/-- On a queue that `sysv_msgget` has made, calls give what the mailbox gives exactly as long as
every one is a send that is refused for its arguments: the queue is not in use.  In every state that
sound calls reach on a queue in use, the queue is as the mailbox, and the next call gives what it
gives. -/
theorem refines_mailbox (t : MsgTrack) :
    (Made t → ∀ ops, (Along Answers exec t ops ∧ (ops.foldl exec t).Right ↔
      ∀ op ∈ ops, op.Refused)) ∧
    (Reached t → t.Right ∧ ∀ op, t.q.used → t.q.Sound op → t.Answers op) := by
  constructor
  · rintro ⟨s, nodes, hFresh, rfl⟩ ops
    have hRight := (Start.agrees ⟨s.used, s.perm, nodes, rfl⟩).right
    obtain ⟨hIff, hStays⟩ :=
      along_answers_iff (t := ofSlot s.used s.perm nodes) hFresh.unused rfl ops
    refine ⟨fun hAll => hIff.mp hAll.1, fun hRefused => ?_⟩
    have hAlong := hIff.mpr hRefused
    exact ⟨hAlong, by rw [hStays hAlong]; exact hRight⟩
  · intro hReached
    have hAgrees := hReached.agrees
    exact ⟨hAgrees.right, fun op hUse hSound => (hAgrees.exec hUse hSound).1⟩

def rootQueue (used : Bool) : MsgTrack := ofSlot used {} fun _ => ⟨none, 0, []⟩

def rootSnd (mtype : BitVec 64) (data : List (BitVec 8)) : MsgOp :=
  .snd ⟨1, 0, 0⟩ mtype data true true

def rootRcv (msgtyp : BitVec 64) : MsgOp := .rcv ⟨1, 0, 0⟩ 100 msgtyp false true

/-- Three messages are sent on a queue in use, and one in the middle is received by its type. -/
theorem refines_mailbox_second :
    ([rootSnd 2 [7], rootSnd 1 [8], rootSnd 3 [], rootRcv 1].foldl exec (rootQueue true)).Right ∧
      ([rootSnd 2 [7], rootSnd 1 [8], rootSnd 3 [], rootRcv 1].foldl exec
      (rootQueue true)).box.msgs =
        [⟨2, [7]⟩, ⟨3, []⟩] := by
  have hReached :
      ([rootSnd 2 [7], rootSnd 1 [8], rootSnd 3 [], rootRcv 1].foldl exec
        (rootQueue true)).Reached :=
    Reaches.foldl (.start ⟨_, _, _, rfl⟩) _ (by decide +kernel)
  exact ⟨((refines_mailbox _).2 hReached).1, by decide +kernel⟩

-- Why a send must find a tail: the last of two messages is received, and the next send drops the
-- other one.
example :
    let t := [rootSnd 1 [7], rootSnd 2 [8], rootRcv 2, rootSnd 3 [9]].foldl exec (rootQueue true)
    t.box.msgs = [⟨1, [7]⟩, ⟨3, [9]⟩] ∧ t.q.contents = [⟨3, [9]⟩] ∧ t.q.qnum = 2 := by
  decide +kernel

/-- `sysv_msgget` by root, the first call since boot. -/
def rootGet : GetArgs := ⟨⟨1, 0, 0⟩, 0, true, false, 0, 0, true⟩

/-- The queue that the call has made refuses a message that it must take. -/
theorem message_refused :
    ∃ s, Tables.Fresh .msg s ∧ s = ((sysvMsgget (Tables.boot .msg) rootGet).2.slots 0) ∧
      ((ofSlot s.used s.perm fun _ => ⟨none, 0, []⟩).q.run (rootSnd 1 [7])).1 = .err .inval ∧
      ((ofSlot s.used s.perm fun _ => ⟨none, 0, []⟩).box.run (rootSnd 1 [7])).1 = .done := by
  refine ⟨_, ⟨[], rootGet, 0, by decide +kernel, rfl⟩, rfl, ?_, ?_⟩
  · decide +kernel
  · decide +kernel

end MsgTrack

end Gnos.Ipc
