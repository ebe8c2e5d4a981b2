import Gnos.ProofKit.Runs
import Gnos.Tmpfs.Model

/-! The bytes of tmpfs files.  A file keeps them in one block of the arena until it is mapped
shared, and in frames of its own from then on.  What it shows is compared with a sparse array that
the same calls change.  -/

namespace Gnos.Tmpfs

open ProofKit Function List Node
open Nat (mod_eq_of_lt zero_le)

variable {need off : ℕ}

/-- A byte of the arena, or one of physical memory. -/
abbrev Loc := ℕ ⊕ ℕ

def pokes {κ : Type*} [DecidableEq κ] (m : κ → UInt8) (at_ : ℕ → κ) : List UInt8 → κ → UInt8
  | [] => m
  | v :: l => pokes (Function.update m (at_ 0) v) (fun k => at_ (k + 1)) l

namespace Node

variable (a : Node)

def place (frames : List ℕ) (i : ℕ) : ℕ := frames.getD (i / 4096) 0 + i % 4096

/-- Where `node_bytes_in` and `node_bytes_out` find byte `i`. -/
def loc (i : ℕ) : Loc := if a.shm = [] then .inl (a.data.getD 0 + i) else .inr (place a.shm i)

def cap : ℕ := if a.shm = [] then a.datacap else a.shm.length * 4096

/-- What `tmpfs_node_setsize` clears: the first place, and how many bytes.  The frames are taken to
lie one after the other. -/
def wiped (len : ℕ) : (ℕ → Loc) × ℕ :=
  if a.shm ≠ [] then (fun k => .inr (a.shm.headD 0 + a.size + k), len - a.size)
  else if a.data = none then (a.loc, 0)
  else if a.size < len then (fun k => a.loc (a.size + k), (len - a.size) % 2 ^ 32)
  else (fun k => a.loc (len + k), (a.size - len) % 2 ^ 32)

end Node

/-- The frame array of `shm_grow`: the old frames stay in front of the new ones. -/
def grown (shm fr : List ℕ) (need : ℕ) : List ℕ := shm ++ (fr.take need).drop shm.length

def pages (bytes : ℕ) : ℕ := (bytes + 4095) % 2 ^ 64 / 4096 % 2 ^ 32

def newcap (e : ℕ) : ℕ := (e % 2 ^ 32 + 4095) % 2 ^ 32 / 4096 * 4096

namespace State

variable (s : State)

def ram : Loc → UInt8 := Sum.elim s.arena s.mem

/-- Node `n` and all bytes are set, and the arena is used up to `off`. -/
def put (off : ℕ) (r : Loc → UInt8) (n : ℕ) (a : Node) : State :=
  { s with
    arenaOff := off
    arena := fun i => r (.inl i)
    mem := fun i => r (.inr i)
    pool := Function.update s.pool n a }

def byte (n i : ℕ) : UInt8 := s.ram ((s.pool n).loc i)

/-- `fr` are the frames that `pmm_alloc_zeroed` has to give. -/
def shmGrow (n bytes : ℕ) (fr : List ℕ) : Option State :=
  let need := pages bytes
  if need ≤ (s.pool n).shm.length then some s
  else if fr.length < need then none
  else
    let mem x := if x / 4096 * 4096 ∈ fr.take need then 0 else s.mem x
    some (s.put s.arenaOff (Sum.elim s.arena mem) n
      { s.pool n with shm := grown (s.pool n).shm fr need })

/-- A new block of the arena, with the bytes of the old one. -/
def heapGrow (n e : ℕ) : Option State :=
  (s.arenaAlloc (newcap e)).map fun (at_, s') =>
    let old :=
      if (s.pool n).data.isSome then (List.range ((s.pool n).size % 2 ^ 32)).map (s.byte n) else []
    s.put s'.arenaOff (pokes s.ram (fun k => .inl (at_ + k)) old) n
      { s.pool n with data := some at_, datacap := newcap e }

/-- Room for the first `e` bytes, as `tmpfs_write` and `tmpfs_node_setsize` make it. -/
def cover (n e : ℕ) (fr : List ℕ) : Except Err State :=
  if (s.pool n).shm ≠ [] then
    if (s.pool n).shm.length * 4096 < e then (s.shmGrow n e fr).elim (.error .nomem) .ok else .ok s
  else if (s.pool n).datacap < e then (s.heapGrow n e).elim (.error .nospc) .ok
  else .ok s

def read (n off len : ℕ) : Except Err (List UInt8) :=
  if (s.pool n).kind ≠ .file then .error .inval
  else .ok ((List.range (min ((s.pool n).size - off) len)).map fun k => s.byte n (off + k))

def write (n off : ℕ) (l : List UInt8) (fr : List ℕ) : State × Except Err ℕ :=
  if (s.pool n).kind ≠ .file then (s, .error .inval)
  else
    let e := (off + l.length) % 2 ^ 64
    match s.cover n e fr with
    | .error x => (s, .error x)
    | .ok s =>
      (s.put s.arenaOff (pokes s.ram (fun k => (s.pool n).loc (off + k)) l) n
        { s.pool n with size := max (s.pool n).size e }, .ok l.length)

def truncate (n : ℕ) : State × Except Err Unit :=
  (s.put s.arenaOff s.ram n { s.pool n with size := 0 }, .ok ())

def setsize (n len : ℕ) (fr : List ℕ) : State × Except Err Unit :=
  if (s.pool n).kind = .dir then (s, .error .isdir)
  else if (s.pool n).kind ≠ .file then (s, .error .inval)
  else
    match s.cover n len fr with
    | .error x => (s, .error x)
    | .ok s =>
      let (at_, count) := (s.pool n).wiped len
      (s.put s.arenaOff (pokes s.ram at_ (List.replicate count 0)) n { s.pool n with size := len },
        .ok ())

/-- The bytes that the file had in the arena are copied into its frames, whenever it has some. -/
def seed (n : ℕ) : State :=
  match (s.pool n).data with
  | none => s
  | some d =>
    let old := (List.range (min (s.pool n).size ((s.pool n).shm.length * 4096))).map fun i =>
      s.arena (d + i)
    s.put s.arenaOff (pokes s.ram (s.pool n).loc old) n (s.pool n)

def shmStart (n bytes : ℕ) (fr : List ℕ) : State × Except Err Unit :=
  if (s.pool n).kind ≠ .file then (s, .error .inval)
  else
    let bytes := if bytes = 0 then 4096 else bytes
    match if (s.pool n).shm.length * 4096 < bytes then s.shmGrow n bytes fr else some s with
    | none => (s, .error .nomem)
    | some s => (s.seed n, .ok ())

def store (n pos : ℕ) (v : UInt8) : State × Except Err Unit :=
  (s.put s.arenaOff (pokes s.ram (fun _ => (s.pool n).loc pos) [v]) n (s.pool n), .ok ())

end State

/-- A file: its size, and bytes that are zero past it. -/
structure File where
  size : ℕ
  byte : ℕ → UInt8
  beyond : ∀ i, size ≤ i → byte i = 0

namespace File

def empty : File := ⟨0, fun _ => 0, fun _ _ => rfl⟩

/-- A write of nothing does not make a file longer. -/
def write (f : File) (off : ℕ) (l : List UInt8) : File where
  size := if l = [] then f.size else max f.size (off + l.length)
  byte i := if off ≤ i ∧ i < off + l.length then l.getD (i - off) 0 else f.byte i
  beyond i hi := by
    have hLength : l = [] → l.length = 0 := by simp +contextual
    rw [if_neg (by split at hi <;> grind)]
    exact f.beyond i (by grind)

def resize (f : File) (len : ℕ) : File where
  size := len
  byte i := if i < len then f.byte i else 0
  beyond i hi := if_neg (by omega)

/-- A store past the end, on the last page of the mapping, is not part of the file. -/
def store (f : File) (pos : ℕ) (v : UInt8) : File where
  size := f.size
  byte i := if i = pos ∧ pos < f.size then v else f.byte i
  beyond i hi := by rw [if_neg (by omega), f.beyond i hi]

def read (f : File) (off len : ℕ) : List UInt8 :=
  (List.range (min (f.size - off) len)).map fun k => f.byte (off + k)

end File

inductive FileOp where
  | write (n off : ℕ) (l : List UInt8) (fr : List ℕ)
  | truncate (n : ℕ)
  | setsize (n len : ℕ) (fr : List ℕ)
  | shmStart (n bytes : ℕ) (fr : List ℕ)
  | store (n pos : ℕ) (v : UInt8)

/-- The files, and the arrays that the calls have made. -/
structure Tracked where
  s : State
  f : ℕ → File

namespace Tracked

/-- A call that succeeds changes the array of its file. -/
def note {α : Type} (t : Tracked) (n : ℕ) (g : File → File) (r : State × Except Err α) : Tracked :=
  ⟨r.1, match r.2 with
    | .ok _ => Function.update t.f n (g (t.f n))
    | .error _ => t.f⟩

def exec (t : Tracked) : FileOp → Tracked
  | .write n off l fr => t.note n (·.write off l) (t.s.write n off l fr)
  | .truncate n => t.note n (·.resize 0) (t.s.truncate n)
  | .setsize n len fr => t.note n (·.resize len) (t.s.setsize n len fr)
  | .shmStart n bytes fr => t.note n id (t.s.shmStart n bytes fr)
  | .store n pos v => t.note n (·.store pos v) (t.s.store n pos v)

end Tracked

/-- Lengths below this one wrap nowhere. -/
def sizeLimit : ℕ := 2 ^ 32 - 2 ^ 24

namespace State

variable (s : State)

/-- No file has bytes, and the arena is clear where nothing was allocated. -/
structure Empty : Prop where
  node : ∀ n, (s.pool n).size = 0 ∧ (s.pool n).data = none ∧ (s.pool n).datacap = 0 ∧
    (s.pool n).shm = []
  clear : ∀ i, s.arenaOff ≤ i → s.arena i = 0
  room : s.arenaOff ≤ arenaSize

def Unused (fr : List ℕ) : Prop := fr.Nodup ∧ ∀ x ∈ fr, x % 4096 = 0 ∧ ∀ m, x ∉ (s.pool m).shm

/-- What the frame allocator gives is unused, and stores go to pages that are mapped. -/
def Legal : FileOp → Prop
  | .write _ _ _ fr | .setsize _ _ fr | .shmStart _ _ fr => s.Unused fr
  | .truncate _ => True
  | .store n pos _ => pos < (s.pool n).shm.length * 4096

/-- The bytes that a file has between its size and `off` are zero, unless a write to `e` moves the
file to another block. -/
def Clean (n off e : ℕ) : Prop :=
  ∀ i, (s.pool n).size ≤ i → i < off → i < (s.pool n).cap →
    ((s.pool n).shm = [] → e ≤ (s.pool n).cap) → s.byte n i = 0

def Careful : FileOp → Prop
  | .write n off l _ =>
    off + l.length < sizeLimit ∧ (l = [] → off ≤ (s.pool n).size) ∧ s.Clean n off (off + l.length)
  | .truncate _ => True
  | .setsize n len fr =>
    -- the frames that are cleared lie one after the other
    len < sizeLimit ∧ ((s.pool n).shm ≠ [] → ∀ i, (s.pool n).size ≤ i → i < len →
      place (grown (s.pool n).shm fr (pages len)) i = (s.pool n).shm.headD 0 + i)
  | .shmStart n bytes _ =>
    -- the mapping covers the file, and a second one finds in the arena what the file has
    bytes < sizeLimit ∧
      ((s.pool n).shm = [] → (s.pool n).size ≤ pages (if bytes = 0 then 4096 else bytes) * 4096) ∧
      ((s.pool n).shm ≠ [] → ∀ d, (s.pool n).data = some d →
        ∀ i < (s.pool n).size, s.arena (d + i) = s.byte n i)
  | .store .. => True

end State

/-- The states that sound calls reach from empty files. -/
def Tracked.Reached : Tracked → Prop :=
  Reaches (fun t => t.s.Empty ∧ t.f = fun _ => .empty) (fun t op => t.s.Legal op ∧
    t.s.Careful op) Tracked.exec

section Pokes

variable {κ : Type*} [DecidableEq κ] {m : κ → UInt8} {at_ : ℕ → κ} {l : List UInt8}

theorem pokes_of_ne {x : κ} (h : ∀ k < l.length, at_ k ≠ x) : pokes m at_ l x = m x := by
  induction l generalizing m at_ with
  | nil => rfl
  | cons v l ih =>
    rw [pokes, ih fun k hk => h (k + 1) (by simpa using hk), update_of_ne (h 0 (by simp)).symm]

theorem pokes_at (hInj : ∀ j k, j < l.length → k < l.length → at_ j = at_ k → j = k) {k : ℕ}
    (hk : k < l.length) : pokes m at_ l (at_ k) = l.getD k 0 := by
  induction l generalizing m at_ k with
  | nil => simp at hk
  | cons v l ih =>
    cases k with
    | zero =>
      rw [pokes, pokes_of_ne, update_self]
      · rfl
      · intro j hj hEq
        simpa using hInj _ _ (by simpa using hj) hk hEq
    | succ k =>
      rw [pokes, ih (fun i j hi hj hEq => ?_) (by simpa using hk)]
      · simp
      · simpa using hInj _ _ (by simpa using hi) (by simpa using hj) hEq

end Pokes

theorem pages_spec {e : ℕ} (h : e < sizeLimit) :
    e ≤ pages e * 4096 ∧ pages e * 4096 < e + 4096 := by
  simp only [pages, sizeLimit] at *
  omega

theorem newcap_spec {e : ℕ} (h : e < sizeLimit) : e ≤ newcap e ∧ newcap e < e + 4096 := by
  simp only [newcap, sizeLimit] at *
  omega

theorem grown_length {shm fr : List ℕ} (h : shm.length ≤ need) (hfr : need ≤ fr.length) :
    (grown shm fr need).length = need := by
  simp [grown]
  omega

/-- A byte of the grown array is in an old frame, or in the new frame of the same index. -/
theorem place_grown (shm fr : List ℕ) {i : ℕ} (hi : i < need * 4096) (hfr : need ≤ fr.length) :
    place (grown shm fr need) i =
      if i < shm.length * 4096 then place shm i else fr.getD (i / 4096) 0 + i % 4096 := by
  simp only [place, grown, getD_eq_getElem?_getD, getElem?_append, getElem?_drop, getElem?_take]
  grind

theorem grown_of_le {shm fr : List ℕ} (h : need ≤ shm.length) : grown shm fr need = shm := by
  simp [grown, h.trans' (min_le_left ..)]

theorem getD_mem {l : List ℕ} {k : ℕ} (hk : k < l.length) : l.getD k 0 ∈ l := by
  rw [getD_eq_getElem _ _ hk]
  exact getElem_mem hk

namespace State

variable {s s' : State} {f : ℕ → File} {g : File} {n e : ℕ} {fr : List ℕ}

@[simp] theorem ram_put (off : ℕ) (r : Loc → UInt8) (a : Node) : (s.put off r n a).ram = r := by
  funext x
  cases x <;> rfl

@[simp] theorem pool_put_self (off : ℕ) (r : Loc → UInt8) (a : Node) :
    (s.put off r n a).pool n = a :=
  update_self ..

theorem pool_put_of_ne {m : ℕ} (off : ℕ) (r : Loc → UInt8) (a : Node) (hm : m ≠ n) :
    (s.put off r n a).pool m = s.pool m :=
  update_of_ne hm ..

theorem put_self : s.put s.arenaOff s.ram n (s.pool n) = s := by
  simp [put, ram]

/-- A file has room for its bytes, in the used part of the arena or in frames. -/
structure Fits (a : Node) (off : ℕ) : Prop where
  block : a.shm = [] → a.data.getD 0 + a.datacap ≤ off
  data : a.shm = [] → a.data = none → a.datacap = 0
  frames : ∀ x ∈ a.shm, x % 4096 = 0
  size : a.size ≤ a.cap

structure Matches (s : State) (f : ℕ → File) : Prop where
  apart : ∀ n m i j, i < (s.pool n).cap → j < (s.pool m).cap → (s.pool n).loc i = (s.pool m).loc j →
    n = m ∧ i = j
  fits : ∀ n, Fits (s.pool n) s.arenaOff
  clear : ∀ i, s.arenaOff ≤ i → s.arena i = 0
  room : s.arenaOff ≤ arenaSize
  size : ∀ n, (f n).size = (s.pool n).size
  bytes : ∀ n i, i < (s.pool n).size → s.byte n i = (f n).byte i

section Matches

variable (h : Matches s f)
include h

theorem Matches.byte_beyond {i : ℕ} (hi : (s.pool n).size ≤ i) : (f n).byte i = 0 :=
  (f n).beyond i (h.size n ▸ hi)

theorem Matches.lt_arenaOff {m j x : ℕ} (hj : j < (s.pool m).cap)
    (hEq : (s.pool m).loc j = .inl x) : x < s.arenaOff := by
  simp only [loc, cap] at hj hEq
  split at hEq
  · rename_i hShm
    have := (h.fits m).block hShm
    simp only [hShm, if_true, Sum.inl.injEq] at hj hEq
    omega
  · cases hEq

theorem Matches.put {r : Loc → UInt8} {a : Node} (hOff : s.arenaOff ≤ off) (hRoom : off ≤ arenaSize)
    (hFits : Fits a off) (hClear : ∀ i, off ≤ i → r (.inl i) = 0)
    (hKept : ∀ m ≠ n, ∀ j < (s.pool m).cap, r ((s.pool m).loc j) = s.ram ((s.pool m).loc j))
    (hOwn : ∀ i j, i < a.cap → j < a.cap → a.loc i = a.loc j → i = j)
    (hOther : ∀ m ≠ n, ∀ i j, i < a.cap → j < (s.pool m).cap → a.loc i ≠ (s.pool m).loc j)
    (hSize : g.size = a.size) (hBytes : ∀ i < a.size, r (a.loc i) = g.byte i) :
    Matches (s.put off r n a) (update f n g) := by
  refine ⟨fun k m i j hi hj hEq => ?_, fun m => ?_, hClear, hRoom, fun m => ?_, fun m i hi => ?_⟩
  · rcases eq_or_ne k n with rfl | hk <;> rcases eq_or_ne m k with rfl | hm
    · simp only [pool_put_self] at hi hj hEq
      exact ⟨rfl, hOwn i j hi hj hEq⟩
    · simp only [pool_put_self, pool_put_of_ne _ _ _ hm] at hi hj hEq
      exact absurd hEq (hOther m hm i j hi hj)
    · simp only [pool_put_of_ne _ _ _ hk] at hi hj hEq
      exact h.apart m m i j hi hj hEq
    · simp only [pool_put_of_ne _ _ _ hk] at hi hEq
      rcases eq_or_ne m n with rfl | hmn
      · simp only [pool_put_self] at hj hEq
        exact absurd hEq.symm (hOther k hk j i hj hi)
      · simp only [pool_put_of_ne _ _ _ hmn] at hj hEq
        exact h.apart k m i j hi hj hEq
  · rcases eq_or_ne m n with rfl | hm
    · rwa [pool_put_self]
    · rw [pool_put_of_ne _ _ _ hm]
      obtain ⟨hBlock, hData, hFrames, hCap⟩ := h.fits m
      exact ⟨fun hShm => (hBlock hShm).trans hOff, hData, hFrames, hCap⟩
  · rcases eq_or_ne m n with rfl | hm
    · rw [update_self, hSize, pool_put_self]
    · rw [update_of_ne hm, pool_put_of_ne _ _ _ hm, h.size]
  · rcases eq_or_ne m n with rfl | hm
    · rw [pool_put_self] at hi
      rw [update_self, byte, ram_put, pool_put_self, hBytes i hi]
    · rw [pool_put_of_ne _ _ _ hm] at hi
      rw [update_of_ne hm, byte, ram_put, pool_put_of_ne _ _ _ hm,
        hKept m hm i (lt_of_lt_of_le hi (h.fits m).size)]
      exact h.bytes m i hi

theorem Matches.poke {p size : ℕ} {at_ : ℕ → Loc} {l : List UInt8}
    (hIn : p + l.length ≤ (s.pool n).cap)
    (hAt : ∀ k < l.length, at_ k = (s.pool n).loc (p + k)) (hCap : size ≤ (s.pool n).cap)
    (hSize : g.size = size)
    (hBytes : ∀ i < size, g.byte i = if p ≤ i ∧
      i < p + l.length then l.getD (i - p) 0 else s.byte n i) :
    Matches (s.put s.arenaOff (pokes s.ram at_ l) n { s.pool n with size }) (update f n g) := by
  -- A place that the list is not stored at keeps its byte.
  have hKept : ∀ x, (∀ k < l.length, (s.pool n).loc (p + k) ≠ x) →
      pokes s.ram at_ l x = s.ram x := fun x hx =>
    pokes_of_ne fun k hk => by rw [hAt k hk]; exact hx k hk
  obtain ⟨hBlock, hData, hFrames, -⟩ := h.fits n
  refine h.put le_rfl h.room ⟨hBlock, hData, hFrames, hCap⟩ (fun i hi => ?_)
    (fun m hm j hj => hKept _ ?_) (fun i j hi hj hEq => (h.apart n n i j hi hj hEq).2)
    (fun m hm i j hi hj hEq => hm (h.apart n m i j hi hj hEq).1.symm) hSize fun i hi => ?_
  · exact (hKept (.inl i) fun k hk hEq => not_lt.mpr hi (h.lt_arenaOff (by omega) hEq)).trans
      (h.clear i hi)
  · exact fun k hk hEq => hm (h.apart _ _ _ _ (by omega) hj hEq).1.symm
  · rw [hBytes i hi]
    split_ifs with hp
    · have hEq : (s.pool n).loc i = at_ (i - p) := by
        rw [hAt _ (by omega), Nat.add_sub_cancel' hp.1]
      refine (congrArg _ hEq).trans (pokes_at (fun j k hj hk hjk => ?_) (by omega))
      rw [hAt j hj, hAt k hk] at hjk
      have := (h.apart n n _ _ (by omega) (by omega) hjk).2
      omega
    · refine hKept _ fun k hk hEq => hp ?_
      have := (h.apart n n _ _ (by omega) (lt_of_lt_of_le hi hCap) hEq).2
      omega

theorem Matches.heapGrow (hShm : (s.pool n).shm = []) (he : e < sizeLimit)
    (hMore : (s.pool n).datacap < e) :
    s.heapGrow n e = none ∨ ∃ s1, s.heapGrow n e = some s1 ∧ Matches s1 f ∧
      s1.pool n = { s.pool n with data := some s.arenaOff, datacap := newcap e } ∧
      ∀ i, (s.pool n).size ≤ i → i < newcap e → s1.byte n i = 0 := by
  obtain ⟨hLe, hLt⟩ := newcap_spec he
  obtain ⟨hBlock, hData, -, hSize⟩ := h.fits n
  have hRoom := h.room
  have hCap : (s.pool n).cap = (s.pool n).datacap := if_pos hShm
  simp only [sizeLimit, arenaSize] at he hRoom
  have hOld :
      (if (s.pool n).data.isSome then (range ((s.pool n).size % 2 ^ 32)).map (s.byte n) else []) =
        (range (s.pool n).size).map (s.byte n) := by
    cases hd : (s.pool n).data with
    | none => simp [show (s.pool n).size = 0 by have := hData hShm hd; omega]
    | some d => rw [mod_eq_of_lt (by omega)]; rfl
  have hSum : (s.arenaOff + newcap e) % 2 ^ 32 = s.arenaOff + newcap e := mod_eq_of_lt (by omega)
  simp only [State.heapGrow, arenaAlloc, if_neg (show newcap e ≠ 0 by omega), hSum, hOld]
  by_cases hFull : arenaSize < s.arenaOff + newcap e
  · simp [hFull]
  rw [if_neg hFull, Option.map_some]
  have hLoc : ∀ i, loc { s.pool n with data := some s.arenaOff, datacap := newcap e } i =
    .inl (s.arenaOff + i) :=
    fun i => by simp [loc, hShm]
  have hCap1 : cap { s.pool n with data := some s.arenaOff, datacap := newcap e } = newcap e := by
    simp [cap, hShm]
  have hApart : ∀ m j, j < (s.pool m).cap →
      ∀ k, (s.pool m).loc j ≠ .inl (s.arenaOff + k) := fun m j hj k hEq => by
    have := h.lt_arenaOff hj hEq
    omega
  have hZero : ∀ i, (s.pool n).size ≤ i → pokes s.ram (fun k => .inl (s.arenaOff + k))
      ((range (s.pool n).size).map (s.byte n)) (.inl (s.arenaOff + i)) = 0 := fun i hi => by
    rw [pokes_of_ne]
    · exact h.clear _ (Nat.le_add_right ..)
    · intro k hk hEq
      simp at hk hEq
      omega
  dsimp only
  refine .inr ⟨_, rfl, update_eq_self n f ▸ h.put (Nat.le_add_right ..) (not_lt.mp hFull) ?_
    (fun i hi => ?_)
    (fun m hm j hj => pokes_of_ne fun k _ => (hApart m j hj k).symm) (by simp [hLoc])
    (fun m hm i j hi hj hEq => hApart m j hj i (hEq ▸ hLoc i)) (h.size n) (fun i hi => ?_),
    pool_put_self .., fun i hi _ => ?_⟩
  · exact ⟨fun _ => by simp, fun _ hNone => (by cases hNone), by simp [hShm],
      (hSize.trans (hCap ▸ hMore.le.trans hLe)).trans_eq hCap1.symm⟩
  · have := hZero (i - s.arenaOff) (by omega)
    rwa [Nat.add_sub_cancel' (by omega)] at this
  · rw [hLoc]
    exact (pokes_at (by simp) (by simpa using hi)).trans
      (by simp [show i < (s.pool n).size from hi, h.bytes n i hi])
  · rw [byte, ram_put, pool_put_self, hLoc, hZero i hi]

theorem Matches.shmGrow (hUnused : s.Unused fr) (he : e < sizeLimit)
    (hMore : (s.pool n).shm.length * 4096 < e)
    (hSize : g.size = (s.pool n).size) (hCap : (s.pool n).size ≤ pages e * 4096)
    (hBytes : ∀ i < (s.pool n).size, g.byte i =
      if i < (s.pool n).shm.length * 4096 then s.byte n i else 0) :
    s.shmGrow n e fr = none ∨ ∃ s1, s.shmGrow n e fr = some s1 ∧ Matches s1 (update f n g) ∧
      s1.pool n = { s.pool n with shm := grown (s.pool n).shm fr (pages e) } ∧ s1.arena = s.arena ∧
      pages e * 4096 = (s1.pool n).cap ∧ (s1.pool n).shm ≠ [] ∧
      ∀ i < pages e * 4096, s1.byte n i =
        if i < (s.pool n).shm.length * 4096 then s.byte n i else 0 := by
  obtain ⟨hLe, -⟩ := pages_spec he
  unfold State.shmGrow
  dsimp only
  rw [if_neg (by omega)]
  by_cases hFew : fr.length < pages e
  · exact .inl (if_pos hFew)
  rw [if_neg hFew]
  generalize ha : ({ s.pool n with shm := grown (s.pool n).shm fr (pages e) } : Node) = a
  generalize hr : (Sum.elim s.arena fun x =>
    if x / 4096 * 4096 ∈ fr.take (pages e) then 0 else s.mem x : Loc → UInt8) = r
  have hLength : a.shm.length = pages e := by
    rw [← ha]
    exact grown_length (by omega) (by omega)
  have hShm : a.shm ≠ [] := fun hNil => by simp [hNil] at hLength; omega
  have hCap1 : a.cap = pages e * 4096 := by rw [cap, if_neg hShm, hLength]
  have hLoc : ∀ i < pages e * 4096, a.loc i =
      if i < (s.pool n).shm.length * 4096 then (s.pool n).loc i
      else .inr (fr.getD (i / 4096) 0 + i % 4096) := by
    intro i hi
    rw [loc, if_neg hShm, ← ha, place_grown _ _ hi (by omega), loc]
    split
    · rw [if_neg fun hNil => by simp [hNil] at *]
    · rfl
  have hNew : ∀ i < pages e * 4096, fr.getD (i / 4096) 0 ∈ fr.take (pages e) ∧
      fr.getD (i / 4096) 0 ∈ fr := by
    intro i hi
    have hk : i / 4096 < (fr.take (pages e)).length := by simp; omega
    have hMem := getD_mem hk
    rw [getD_eq_getElem?_getD, getElem?_take_of_lt (by omega), ← getD_eq_getElem?_getD] at hMem
    exact ⟨hMem, mem_of_mem_take hMem⟩
  -- New frames are no file's, so no byte of a file lies in one.
  have hOld : ∀ m j, j < (s.pool m).cap →
      ∀ x ∈ fr, ∀ k, (s.pool m).loc j ≠ .inr (x + k % 4096) := by
    intro m j hj x hx k hEq
    obtain ⟨hx, hNot⟩ := hUnused.2 x hx
    simp only [loc, cap, place] at hj hEq
    split at hEq
    · cases hEq
    · rename_i hm
      rw [if_neg hm] at hj
      have hMem : (s.pool m).shm.getD (j / 4096) 0 ∈ (s.pool m).shm := getD_mem (by omega)
      have := (h.fits m).frames _ hMem
      simp only [Sum.inr.injEq] at hEq
      exact hNot m ((show (s.pool m).shm.getD (j / 4096) 0 = x by omega) ▸ hMem)
  have hKept : ∀ m j, j < (s.pool m).cap → r ((s.pool m).loc j) = s.ram ((s.pool m).loc j) := by
    intro m j hj
    rw [← hr]
    cases hl : (s.pool m).loc j with
    | inl x => rfl
    | inr x =>
      refine if_neg fun hIn => hOld m j hj _ (mem_of_mem_take hIn) x ?_
      rw [hl]
      congr 1
      omega
  have hIn : ∀ i, i < (s.pool n).shm.length * 4096 → i < (s.pool n).cap := fun i hi => by
    rw [cap, if_neg fun hNil => by simp [hNil] at hi]
    exact hi
  have hByte : ∀ i < pages e * 4096, r (a.loc i) =
      if i < (s.pool n).shm.length * 4096 then s.byte n i else 0 := by
    intro i hi
    rw [hLoc i hi]
    split
    · exact hKept n i (hIn i ‹_›)
    · have := (hUnused.2 _ (hNew i hi).2).1
      rw [← hr]
      refine if_pos ?_
      rw [show (fr.getD (i / 4096) 0 + i % 4096) / 4096 * 4096 = fr.getD (i / 4096) 0 by omega]
      exact (hNew i hi).1
  refine .inr ⟨_, rfl, h.put le_rfl h.room ?_ (fun i hi => by rw [← hr]; exact h.clear i hi)
    (fun m _ => hKept m)
    (fun i j hi hj hEq => ?_) (fun m hm i j hi hj hEq => ?_) (by rw [← ha, hSize]) (fun i hi => ?_),
    pool_put_self .., by rw [← hr]; rfl, by rw [pool_put_self, hCap1], by rwa [pool_put_self],
    fun i hi => by rw [byte, ram_put, pool_put_self, hByte i hi]⟩
  · refine ⟨fun hNil => absurd hNil hShm, fun hNil => absurd hNil hShm,
      fun x hx => ?_, by rw [hCap1, ← ha]; exact hCap⟩
    rw [← ha] at hx
    rcases mem_append.mp hx with hx | hx
    · exact (h.fits n).frames x hx
    · exact (hUnused.2 x (mem_of_mem_take (mem_of_mem_drop hx))).1
  · rw [hCap1] at hi hj
    rw [hLoc i hi, hLoc j hj] at hEq
    split at hEq <;> split at hEq
    · exact (h.apart n n i j (hIn i ‹_›) (hIn j ‹_›) hEq).2
    · exact absurd hEq (hOld n i (hIn i ‹_›) _ (hNew j hj).2 j)
    · exact absurd hEq.symm (hOld n j (hIn j ‹_›) _ (hNew i hi).2 i)
    · have hi' := (hUnused.2 _ (hNew i hi).2).1
      have hj' := (hUnused.2 _ (hNew j hj).2).1
      simp only [Sum.inr.injEq] at hEq
      have hFrame : fr.getD (i / 4096) 0 = fr.getD (j / 4096) 0 := by omega
      rw [getD_eq_getElem _ _ (by omega), getD_eq_getElem _ _ (by omega),
        hUnused.1.getElem_inj_iff] at hFrame
      omega
  · rw [hCap1] at hi
    rw [hLoc i hi] at hEq
    split at hEq
    · exact hm (h.apart n m i j (hIn i ‹_›) hj hEq).1.symm
    · exact hOld m j hj _ (hNew i hi).2 i hEq.symm
  · rw [← ha] at hi
    rw [hBytes i hi, hByte i (lt_of_lt_of_le hi hCap)]

structure Covered (s s₁ : State) (n e : ℕ) (fr : List ℕ) : Prop where
  size : (s₁.pool n).size = (s.pool n).size
  cap : e ≤ (s₁.pool n).cap
  shm : (s₁.pool n).shm = if (s.pool n).shm = [] then [] else grown (s.pool n).shm fr (pages e)
  zero : ∀ off, s.Clean n off e → ∀ i, (s.pool n).size ≤ i → i < off → i < e → s₁.byte n i = 0

theorem Matches.cover (hUnused : s.Unused fr) (he : e < sizeLimit) :
    (∃ x, s.cover n e fr = .error x) ∨ ∃ s1, s.cover n e fr = .ok s1 ∧ Matches s1 f ∧
    Covered s s1 n e fr := by
  obtain ⟨hLe, hLt⟩ := pages_spec he
  have hSize := (h.fits n).size
  have hStay : e ≤ (s.pool n).cap → ((s.pool n).shm ≠ [] → pages e ≤ (s.pool n).shm.length) →
      Covered s s n e fr := by
    refine fun hCap hPages => ⟨rfl, hCap, ?_,
      fun off hClean i hi hOff hie => hClean i hi hOff (by omega) fun _ => hCap⟩
    split
    · assumption
    · rw [grown_of_le (hPages ‹_›)]
  unfold State.cover
  by_cases hShm : (s.pool n).shm = []
  · have hCap : (s.pool n).cap = (s.pool n).datacap := if_pos hShm
    rw [if_neg (not_not.mpr hShm)]
    by_cases hMore : (s.pool n).datacap < e
    · rw [if_pos hMore]
      rcases h.heapGrow hShm he hMore with hNone | ⟨s1, hSome, hInv, hNode, hZero⟩
      · exact .inl ⟨.nospc, by rw [hNone]; rfl⟩
      · obtain ⟨hNew, -⟩ := newcap_spec he
        refine .inr ⟨s1, by rw [hSome]; rfl, hInv, by rw [hNode], ?_, by simp [hNode, hShm],
          fun off _ i hi _ hie => ?_⟩
        · simpa [hNode, cap, hShm] using hNew
        · exact hZero i hi (by omega)
    · rw [if_neg hMore]
      exact .inr ⟨s, rfl, h, hStay (by omega) (absurd hShm)⟩
  · have hCap : (s.pool n).cap = (s.pool n).shm.length * 4096 := if_neg hShm
    rw [if_pos hShm]
    by_cases hMore : (s.pool n).shm.length * 4096 < e
    · rw [if_pos hMore]
      rcases h.shmGrow (n := n) hUnused he hMore (h.size n) (by omega) fun i hi => by
        rw [if_pos (by omega), h.bytes n i hi] with
          hNone | ⟨s1, hSome, hInv, hNode, -, hCap1, -, hByte⟩
      · exact .inl ⟨.nomem, by rw [hNone]; rfl⟩
      · rw [update_eq_self] at hInv
        refine .inr ⟨s1, by rw [hSome]; rfl,
          hInv, by rw [hNode], by omega, by rw [hNode, if_neg hShm],
          fun off hClean i hi hOff hie => ?_⟩
        rw [hByte i (by omega)]
        split
        · exact hClean i hi hOff (by omega) (absurd · hShm)
        · rfl
    · rw [if_neg hMore]
      exact .inr ⟨s, rfl, h, hStay (by omega) fun _ => by omega⟩

end Matches

section Calls

variable {t : Tracked} (h : Matches t.s t.f)
include h

theorem Matches.write {l : List UInt8} (hLegal : t.s.Legal (.write n off l fr))
    (hCareful : t.s.Careful (.write n off l fr)) :
    Matches (t.exec (.write n off l fr)).s (t.exec (.write n off l fr)).f := by
  obtain ⟨he, hNil, hClean⟩ := hCareful
  have hSum : (off + l.length) % 2 ^ 64 = off + l.length :=
    mod_eq_of_lt (by simp only [sizeLimit] at he; omega)
  simp only [Tracked.exec, Tracked.note, State.write, hSum]
  split
  · exact h
  rcases h.cover (n := n) hLegal he with ⟨x, hError⟩ | ⟨s1, hOk, hInv, hCov⟩
  · simpa only [hError] using h
  simp only [hOk]
  have hSize := (hInv.fits n).size
  rw [hCov.size] at hSize
  rw [hCov.size]
  refine hInv.poke hCov.cap (fun _ _ => rfl) (max_le hSize hCov.cap) ?_ fun i hi => ?_
  · simp only [File.write, h.size]
    grind
  · simp only [File.write]
    split
    · rfl
    by_cases hIn : i < (t.s.pool n).size
    · rw [hInv.bytes n i (hCov.size ▸ hIn)]
    · rw [h.byte_beyond (by omega), hCov.zero off hClean i (by omega) (by omega) (by omega)]

omit h in
/-- What `tmpfs_node_setsize` clears of the file that it leaves is what comes after the old size. -/
theorem Fits.wiped {a : Node} (h : Fits a off) (len : ℕ) (hOff : off < 2 ^ 32) (hCap : len ≤ a.cap)
    (hFrames : a.shm ≠ [] → ∀ i, a.size ≤ i → i < len → place a.shm i = a.shm.headD 0 + i) :
    ∃ p, p + (a.wiped len).2 ≤ a.cap ∧ (∀ k < (a.wiped len).2, (a.wiped len).1 k = a.loc (p + k)) ∧
      ∀ i < len, p ≤ i ∧ i < p + (a.wiped len).2 ↔ a.size ≤ i := by
  obtain ⟨hBlock, hData, -, hSize⟩ := h
  unfold Node.wiped
  split
  · rename_i hShm
    refine ⟨a.size, by dsimp only; omega, fun k hk => ?_, fun i hi => by dsimp only; omega⟩
    dsimp only at hk ⊢
    rw [loc, if_neg hShm, hFrames hShm _ (Nat.le_add_right ..) (by omega), Nat.add_assoc]
  rename_i hShm
  rw [not_not] at hShm
  have hHeap : a.cap = a.datacap := if_pos hShm
  have hBlock := hBlock hShm
  split
  · rename_i hNone
    have := hData hShm hNone
    exact ⟨0, zero_le _, by simp, fun i hi => by omega⟩
  split
  · exact ⟨a.size, by dsimp only; omega, fun _ _ => rfl, fun i hi => by dsimp only; omega⟩
  · exact ⟨len, by dsimp only; omega, fun _ _ => rfl, fun i hi => by dsimp only; omega⟩

theorem Matches.setsize {len : ℕ} (hLegal : t.s.Legal (.setsize n len fr))
    (hCareful : t.s.Careful (.setsize n len fr)) :
    Matches (t.exec (.setsize n len fr)).s (t.exec (.setsize n len fr)).f := by
  obtain ⟨he, hFrames⟩ := hCareful
  simp only [Tracked.exec, Tracked.note, State.setsize]
  split
  · exact h
  split
  · exact h
  rcases h.cover (n := n) hLegal he with ⟨x, hError⟩ | ⟨s1, hOk, hInv, hCov⟩
  · simpa only [hError] using h
  simp only [hOk]
  have hHead : (t.s.pool n).shm ≠ [] → (s1.pool n).shm = grown (t.s.pool n).shm fr (pages len) ∧
      (s1.pool n).shm.headD 0 = (t.s.pool n).shm.headD 0 := fun hShm => by
    have hGrown := hCov.shm.trans (if_neg hShm)
    refine ⟨hGrown, ?_⟩
    rw [hGrown, grown]
    cases hl : (t.s.pool n).shm with
    | nil => exact absurd hl hShm
    | cons x l => rfl
  obtain ⟨p, hIn, hAt, hIff⟩ := (hInv.fits n).wiped len
    (by have := hInv.room; simp only [arenaSize] at this; omega) hCov.cap fun hShm i hi hLen => by
      have hOld : (t.s.pool n).shm ≠ [] := fun hNil => hShm (hCov.shm.trans (if_pos hNil))
      rw [(hHead hOld).2, (hHead hOld).1]
      exact hFrames hOld i (hCov.size ▸ hi) hLen
  refine hInv.poke (by rwa [length_replicate]) (by rwa [length_replicate]) hCov.cap rfl
    fun i hi => ?_
  simp only [File.resize, if_pos hi, length_replicate, hIff i hi]
  split
  · rw [h.byte_beyond (hCov.size ▸ ‹_›)]
    simp
  · rw [hInv.bytes n i (by omega)]

theorem Matches.seed {s1 : State} (hInv : Matches s1 (update t.f n g))
    (hSize : (s1.pool n).size = (t.s.pool n).size) (hShm : (s1.pool n).shm ≠ [])
    (hData : ∀ d, (s1.pool n).data = some d →
      ∀ i < (t.s.pool n).size, s1.arena (d + i) = (t.f n).byte i)
    (hNone : (s1.pool n).data = none → ∀ i < (t.s.pool n).size, g.byte i = (t.f n).byte i) :
    Matches (s1.seed n) t.f := by
  have hFits := (hInv.fits n).size
  have hCap : (s1.pool n).cap = (s1.pool n).shm.length * 4096 := if_neg hShm
  suffices Matches (s1.seed n) (update (update t.f n g) n (t.f n)) by simpa using this
  unfold State.seed
  split
  · rename_i hd
    refine put_self (s := s1) (n := n) ▸ hInv.poke (p := 0) (l := []) (zero_le _)
      (fun _ _ => rfl) hFits (hSize ▸ h.size n) fun i hi => ?_
    rw [if_neg (by simp), hInv.bytes n i hi, update_self, hNone hd i (hSize ▸ hi)]
  · rename_i d hd
    refine hInv.poke (p := 0) (by simp; omega) (fun _ _ => by rw [Nat.zero_add]) hFits
      (hSize ▸ h.size n) fun i hi => ?_
    replace hi : i < (s1.pool n).size := hi
    simp only [length_map, length_range]
    rw [if_pos (by omega), Nat.sub_zero, ← hData d hd i (hSize ▸ hi),
      getD_eq_getElem _ _ (by simp; omega)]
    simp

theorem Matches.shmStart {bytes : ℕ} (hLegal : t.s.Legal (.shmStart n bytes fr))
    (hCareful : t.s.Careful (.shmStart n bytes fr)) :
    Matches (t.exec (.shmStart n bytes fr)).s (t.exec (.shmStart n bytes fr)).f := by
  obtain ⟨he, hCover, hSeed⟩ := hCareful
  obtain ⟨hBlock, hNone, -, hSize⟩ := h.fits n
  simp only [Tracked.exec, Tracked.note, State.shmStart, id, update_eq_self]
  replace he : (if bytes = 0 then 4096 else bytes) < sizeLimit := by
    simp only [sizeLimit] at *; split <;> omega
  have hPos : 0 < if bytes = 0 then 4096 else bytes := by split <;> omega
  generalize (if bytes = 0 then 4096 else bytes) = e at hCover he hPos ⊢
  split
  · exact h
  -- What the arena has of the file is what the file shows.
  have hData : ∀ d, (t.s.pool n).data = some d →
      ∀ i < (t.s.pool n).size, t.s.arena (d + i) = (t.f n).byte i := by
    intro d hd i hi
    rw [← h.bytes n i hi]
    by_cases hShm : (t.s.pool n).shm = []
    · simp [byte, ram, loc, hShm, hd]
    · exact hSeed hShm d hd i hi
  by_cases hMore : (t.s.pool n).shm.length * 4096 < e
  · simp only [if_pos hMore]
    -- Frames of a file that had none show zeros until they are seeded.
    let g := if (t.s.pool n).shm = [] then File.empty.resize (t.s.pool n).size else t.f n
    have hg : g.size = (t.s.pool n).size ∧ (t.s.pool n).size ≤ pages e * 4096 ∧
        ∀ i < (t.s.pool n).size,
        g.byte i = if i < (t.s.pool n).shm.length * 4096 then t.s.byte n i else 0 := by
      obtain ⟨hLe, -⟩ := pages_spec he
      simp only [g, cap] at hSize ⊢
      split_ifs with hShm
      · exact ⟨rfl, hCover hShm, fun i hi => by simp [hShm, File.resize, File.empty]⟩
      · rw [if_neg hShm] at hSize
        exact ⟨h.size n, hSize.trans (hMore.le.trans hLe),
          fun i hi => by rw [if_pos (by omega), h.bytes n i hi]⟩
    rcases h.shmGrow hLegal he hMore hg.1 hg.2.1 hg.2.2 with hFail |
      ⟨s1, hSome, hInv, hNode, hArena, -, hShm, -⟩
    · simpa only [hFail] using h
    · simp only [hSome]
      refine h.seed hInv (by rw [hNode]) hShm (by rw [hNode, hArena]; exact hData) fun hd i hi => ?_
      rw [hNode] at hd
      simp only [g, cap] at hSize ⊢
      grind
  · simp only [if_neg hMore]
    have hInv : Matches t.s (update t.f n (t.f n)) := by rwa [update_eq_self]
    refine h.seed hInv rfl (fun hNil => ?_) hData fun _ _ _ => rfl
    simp [hNil] at hMore
    omega

theorem Matches.exec {op : FileOp} (hLegal : t.s.Legal op) (hCareful : t.s.Careful op) :
    Matches (t.exec op).s (t.exec op).f := by
  cases op with
  | write n off l fr => exact h.write hLegal hCareful
  | truncate n =>
    exact h.poke (p := 0) (l := []) (zero_le _) (fun _ _ => rfl) (zero_le _) rfl
      fun i hi => by omega
  | setsize n len fr => exact h.setsize hLegal hCareful
  | shmStart n bytes fr => exact h.shmStart hLegal hCareful
  | store n pos v =>
    have hCap : (t.s.pool n).cap = (t.s.pool n).shm.length * 4096 := if_neg fun hNil => by
      simp [Legal, hNil] at hLegal
    have hSize := (h.fits n).size
    refine h.poke (p := pos) (l := [v]) (hCap ▸ hLegal) (fun k hk => ?_) hSize (h.size n)
      fun i hi => ?_
    · simp at hk
      rw [hk, Nat.add_zero]
    · rw [← h.size] at hi
      simp only [File.store, h.bytes n i (h.size n ▸ hi), length_singleton]
      grind

end Calls

theorem write_cases (s : State) (n off : ℕ) (l : List UInt8) (fr : List ℕ) :
    (∃ x, s.write n off l fr = (s, .error x)) ∨ ∃ s', s.write n off l fr = (s', .ok l.length) := by
  unfold write
  split
  · exact .inl ⟨_, rfl⟩
  dsimp only
  split
  · exact .inl ⟨_, rfl⟩
  · exact .inr ⟨_, rfl⟩

theorem Empty.inv (h : s.Empty) : Matches s fun _ => .empty := by
  have hCap : ∀ n, (s.pool n).cap = 0 := fun n => by simp [cap, h.node n]
  refine ⟨fun n m i j hi => ?_, fun n => ⟨?_, ?_, ?_, ?_⟩, h.clear, h.room, fun n => ?_,
    fun n i hi => ?_⟩
  · simp [hCap] at hi
  · simp [h.node n]
  · simp [h.node n]
  · simp [h.node n]
  · simp [h.node n]
  · simp [h.node n, File.empty]
  · simp [h.node n] at hi

end State

namespace Tracked

theorem Reached.matches_files {t : Tracked} (h : t.Reached) : t.s.Matches t.f :=
  Reaches.invariant (I := fun t => t.s.Matches t.f) (fun _ ht => ht.2 ▸ ht.1.inv)
    (fun _ _ hInv hOp => hInv.exec hOp.1 hOp.2) h

/-- In every state that sound calls reach, a read returns the bytes of the array that the same calls
made. -/
theorem read_eq_array {t : Tracked} (h : t.Reached) (n off len : ℕ) :
    (t.f n).size = (t.s.pool n).size ∧
      t.s.read n off len =
        if (t.s.pool n).kind = .file then .ok ((t.f n).read off len) else .error .inval := by
  have hInv := h.matches_files
  refine ⟨hInv.size n, ?_⟩
  simp only [State.read, ite_not, File.read, hInv.size]
  congr 2
  refine map_congr_left fun k hk => hInv.bytes n (off + k) ?_
  simp at hk
  omega

def boot : Tracked := ⟨.init, fun _ => .empty⟩

theorem boot_reached : boot.Reached :=
  .start ⟨⟨fun _ => ⟨rfl, rfl, rfl, rfl⟩, fun _ _ => rfl, zero_le _⟩, rfl⟩

/-- Two files are written in turns, the first one past its end and then over its middle. -/
def written : Tracked :=
  [FileOp.write 0 0 [1, 2, 3] [], .write 1 0 [7] [], .write 0 5 [9] [], .truncate 1,
    .write 0 2 [4, 5] []].foldl exec boot

theorem written_reached : written.Reached := by
  have hUnused : ∀ s : State, s.Unused [] := by simp [State.Unused]
  refine Reaches.foldl boot_reached _
    ⟨⟨hUnused _, ?_⟩, ⟨hUnused _, ?_⟩, ⟨hUnused _, ?_⟩, ⟨trivial, trivial⟩, ⟨hUnused _, ?_⟩,
    trivial⟩
  all_goals refine ⟨by decide, by simp, fun i hLow hHigh hCap _ => ?_⟩
  · exact absurd hHigh (Nat.not_lt_zero i)
  · exact absurd hHigh (Nat.not_lt_zero i)
  · -- The gap of the third call: a new file is clear behind its end.
    have hSize : 3 ≤ i := hLow
    interval_cases i <;> decide +kernel
  · have hSize : 6 ≤ i := hLow
    omega

theorem read_eq_array_written : written.s.read 0 1 9 = .ok [2, 4, 5, 0, 9] ∧
    written.s.read 1 0 9 = .ok [] := by
  have hFirst := (read_eq_array written_reached 0 1 9).2
  have hSecond := (read_eq_array written_reached 1 0 9).2
  rw [hFirst, hSecond]
  decide +kernel

/-- Bytes that `tmpfs_truncate` took off come back when a write leaves a gap over them. -/
theorem truncated_bytes_reappear :
    let t := [FileOp.write 0 0 [1, 2, 3] [], .truncate 0, .write 0 2 [9] []].foldl exec boot
    t.s.read 0 0 3 = .ok [1, 2, 9] ∧ (t.f 0).read 0 3 = [0, 0, 9] := by
  decide +kernel

end Tracked

end Gnos.Tmpfs
