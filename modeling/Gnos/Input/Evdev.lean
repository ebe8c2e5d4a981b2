import Gnos.ProofKit.Ring

/-! Input devices: the event ring of `src/drivers/input/evdev/evdev_queue.c` and the calls of
`evdev.c` that fill and drain it, each with interrupts off. -/

namespace Gnos.Input

open ProofKit List Function

def evdevQueueSize : ℕ := 64

structure InputEvent where
  tvSec : BitVec 64 := 0
  tvUsec : BitVec 64 := 0
  type : BitVec 16 := 0
  code : BitVec 16 := 0
  value : BitVec 32 := 0

/-- The `head` and `tail` of the source are the `tail` and `head` of the ring. -/
structure EvdevDev where
  q : RingBuf InputEvent := ⟨fun _ => {}, 0, 0, 0⟩
  keyState : ℕ → BitVec 16 := fun _ => 0

def evdevQueuePush (q : RingBuf InputEvent) (ev : InputEvent) : RingBuf InputEvent :=
  if q.count = evdevQueueSize then q else q.push evdevQueueSize ev

/-- Also `evdev_queue_pop_to`. -/
def evdevQueuePop (q : RingBuf InputEvent) (max : ℕ) : List InputEvent × RingBuf InputEvent :=
  q.popN evdevQueueSize (min q.count max)

/-- `EV_KEY` with a code of the bitmap. -/
def InputEvent.isKey (ev : InputEvent) : Bool := ev.type = 1 ∧ ev.code.toNat < 1024

/-- The event comes with its time. -/
def evdevPushEvent (d : EvdevDev) (ev : InputEvent) : EvdevDev where
  q := evdevQueuePush d.q ev
  keyState :=
    let i := ev.code.toNat / 16
    let bit := BitVec.twoPow 16 (ev.code.toNat % 16)
    if ev.isKey then
      update d.keyState i (if ev.value ≠ 0 then d.keyState i ||| bit else d.keyState i &&& ~~~bit)
    else d.keyState

/-- Whole events, an error number, or none for a task that goes to sleep; `alert` says that there is
no current task, or that it has a signal. -/
def evdevRead (d : EvdevDev) (len : ℕ) (nonblock alert : Bool) :
    Except (Option ℕ) (List InputEvent) × EvdevDev :=
  if len / 24 = 0 then (.ok [], d)
  else if d.q.count = 0 then
    (.error (if nonblock then some 11 else if alert then some 4 else none), d)
  else
    let r := evdevQueuePop d.q (min (len / 24) d.q.count)
    (.ok r.1, { d with q := r.2 })

inductive EvdevOp
  | push (ev : InputEvent)
  | read (len : ℕ) (nonblock alert : Bool)

def EvdevOp.exec (d : EvdevDev) : EvdevOp → EvdevDev
  | .push ev => evdevPushEvent d ev
  | .read len nonblock alert => (evdevRead d len nonblock alert).2

/-- What a device is for: a queue that refuses events when it is full, and the keys that are
down. -/
structure Keyboard where
  queue : List InputEvent := []
  down : ℕ → Bool := fun _ => false

def EvdevOp.next (b : Keyboard) : EvdevOp → Keyboard
  | .push ev =>
    { queue := if b.queue.length < evdevQueueSize then b.queue ++ [ev] else b.queue
      down := if ev.isKey then update b.down ev.code.toNat (ev.value ≠ 0) else b.down }
  | .read len _ _ => { b with queue := b.queue.drop (len / 24) }

structure Shows (d : EvdevDev) (b : Keyboard) : Prop where
  fits : d.q.Fits evdevQueueSize
  queue : d.q.contents evdevQueueSize = b.queue
  down : ∀ c, (d.keyState (c / 16)).getLsbD (c % 16) = b.down c

section

variable {d : EvdevDev} {b : Keyboard} (h : Shows d b)
include h

theorem Shows.count : d.q.count = b.queue.length := by
  rw [← h.queue, RingBuf.length_contents]

theorem Shows.push (ev : InputEvent) : Shows (evdevPushEvent d ev) (EvdevOp.next b (.push ev)) := by
  have hCount := h.count
  have hRing : (evdevQueuePush d.q ev).Fits evdevQueueSize ∧
      (evdevQueuePush d.q ev).contents evdevQueueSize = (EvdevOp.next b (.push ev)).queue := by
    have hMax := h.fits.count
    unfold evdevQueuePush EvdevOp.next
    split_ifs
    · omega
    · exact ⟨h.fits, h.queue⟩
    · exact h.queue ▸ h.fits.push (by omega) ev
    · omega
  refine ⟨hRing.1, hRing.2, fun c => ?_⟩
  have hDown := h.down c
  have hLow : c % 16 < 16 := Nat.mod_lt c (by decide)
  simp only [evdevPushEvent, EvdevOp.next]
  by_cases hc : c = ev.code.toNat
  · subst hc
    split_ifs
    all_goals simp_all
  · -- another key has another word or another bit
    have hPlace : c / 16 = ev.code.toNat / 16 → c % 16 ≠ ev.code.toNat % 16 := by omega
    split_ifs
    all_goals by_cases hWord : c / 16 = ev.code.toNat / 16 <;> simp_all

theorem Shows.read (len : ℕ) (nonblock alert : Bool) :
    ((evdevRead d len nonblock alert).1 = .ok (b.queue.take (len / 24)) ∨ b.queue = []) ∧
      Shows (evdevRead d len nonblock alert).2 { b with queue := b.queue.drop (len / 24) } := by
  have hCount := h.count
  unfold evdevRead
  split
  next hLen => exact ⟨.inl (by simp [hLen]), h.fits, by simp [hLen, h.queue], h.down⟩
  split
  next hEmpty =>
    have hNil : b.queue = [] := length_eq_zero_iff.mp (by omega)
    exact ⟨.inr hNil, h.fits, by simp [hNil, h.queue], h.down⟩
  next =>
    obtain ⟨hFits, hLength, hContents⟩ :=
      h.fits.popN (min_le_left d.q.count (min (len / 24) d.q.count))
    rw [h.queue] at hContents
    have hMin : min d.q.count (min (len / 24) d.q.count) = min (len / 24) b.queue.length := by omega
    refine ⟨.inl (congrArg Except.ok ?_), hFits, ?_, h.down⟩
    · rw [take_eq_take_min, ← hMin, hContents]
      exact (take_left' hLength).symm
    · show _ = b.queue.drop (len / 24)
      rw [drop_eq_drop_min, ← hMin, hContents]
      exact (drop_left' hLength).symm

end

/-- Reads give the events in order, without those that a full queue refused, and the bitmap has the
keys that are down, refused events counted. -/
theorem evdev_refines_keyboard (ops : List EvdevOp) (len : ℕ) (nonblock alert : Bool) :
    let d : EvdevDev := ops.foldl EvdevOp.exec {}
    let b : Keyboard := ops.foldl EvdevOp.next {}
    ((evdevRead d len nonblock alert).1 = .ok (b.queue.take (len / 24)) ∨ b.queue = []) ∧
      d.q.count = b.queue.length ∧ ∀ c, (d.keyState (c / 16)).getLsbD (c % 16) = b.down c := by
  have hStart : Shows {} {} := ⟨⟨by decide, by decide, by decide, rfl⟩, rfl, by simp⟩
  have hRun : Shows (ops.foldl EvdevOp.exec {}) (ops.foldl EvdevOp.next {}) := by
    refine foldl_rel hStart fun op _ d b h => ?_
    cases op with
    | push ev => exact h.push ev
    | read len nonblock alert => exact (h.read len nonblock alert).2
  exact ⟨(hRun.read len nonblock alert).1, hRun.count, hRun.down⟩

end Gnos.Input
