import Gnos.ProofKit.Word

/-! The block-device page cache of `src/mm/pagecache.c`.  Pages are named by their index in the
pool, and `NULL` is `none`.  The devices, the frame allocator and their failures come from an `Env`,
one outcome for each call.  A trace, which no function reads, records the stores of
`pagecache_write` and the successful device writes. -/

namespace Gnos

open ProofKit Function List

namespace PageCache

def pcPage : ℕ := 4096
def pcPages : ℕ := 4096
def pcBuckets : ℕ := 1024
def raMin : ℕ := 2
def raMax : ℕ := 16
def raTable : ℕ := 64

abbrev Bytes := ℕ → BitVec 8

/-- `pc_page_t`.  `wr` says whether the write callback is set; `data` is the content of the
frame. -/
structure Page where
  next : Option ℕ := none
  lruPrev : Option ℕ := none
  lruNext : Option ℕ := none
  ctx : ℕ := 0
  off : ℕ := 0
  active : Bool := false
  dirty : Bool := false
  ra : Bool := false
  wr : Bool := false
  data : Bytes := fun _ => 0

structure RaState where
  ctx : ℕ := 0
  lastPage : ℕ := 0
  window : ℕ := 0
  inUse : Bool := false

/-- What an observer of the cache sees: bytes stored into a cached page from device offset `off` on,
and pages that a device write accepted. -/
inductive Event
  | stored (ctx off : ℕ) (bytes : List (BitVec 8))
  | wrote (ctx off : ℕ) (page : Bytes)

/-- The outcomes of the calls that leave the cache, by their number.  A failed device read leaves
some bytes in the buffer, a failed write some in the device's page. -/
structure Env where
  read : ℕ → Option Bytes
  write : ℕ → Option Bytes
  frame : ℕ → Bool

end PageCache

open PageCache

/-- The cache's variables, the device contents, the number of calls made and the trace, newest
event first. -/
structure PageCache where
  gPool : ℕ → Page := fun _ => {}
  gUsed : ℕ := 0
  gBucket : ℕ → Option ℕ := fun _ => none
  gActiveHead : Option ℕ := none
  gActiveTail : Option ℕ := none
  gInactiveHead : Option ℕ := none
  gInactiveTail : Option ℕ := none
  gActiveN : ℕ := 0
  gInactiveN : ℕ := 0
  gDirtyN : ℕ := 0
  gRa : ℕ → RaState := fun _ => {}
  gRaVictim : ℕ := 0
  disk : ℕ → Bytes
  clock : ℕ := 0
  trace : List Event := []

namespace PageCache

@[irreducible] def bucketOf (ctx off : ℕ) : ℕ :=
  (0x9E3779B97F4A7C15 * (ctx ^^^ off / 4096)) % 2 ^ 64 / 2 ^ 32 % pcBuckets

variable (s : PageCache)

def modify (p : ℕ) (f : Page → Page) : PageCache :=
  { s with gPool := update s.gPool p (f (s.gPool p)) }

variable (active : Bool)

def head : Option ℕ := if active then s.gActiveHead else s.gInactiveHead

def tail : Option ℕ := if active then s.gActiveTail else s.gInactiveTail

def listN : ℕ := if active then s.gActiveN else s.gInactiveN

def setHead (v : Option ℕ) : PageCache :=
  if active then { s with gActiveHead := v } else { s with gInactiveHead := v }

def setTail (v : Option ℕ) : PageCache :=
  if active then { s with gActiveTail := v } else { s with gInactiveTail := v }

def setN (n : ℕ) : PageCache :=
  if active then { s with gActiveN := n } else { s with gInactiveN := n }

/-- `if (*tail) (*tail)->lru_next = p`. -/
def linkAfter (t : Option ℕ) (p : ℕ) : PageCache :=
  match t with
  | some t => s.modify t fun q => { q with lruNext := some p }
  | none => s

/-- `lru_push` onto the active or the inactive list. -/
def lruPush (p : ℕ) : PageCache :=
  let t := s.tail active
  let s := s.modify p fun q => { q with lruPrev := t, lruNext := none }
  let s := s.linkAfter t p
  let s := s.setTail active (some p)
  let s := if s.head active = none then s.setHead active (some p) else s
  s.setN (s.gPool p).active (s.listN (s.gPool p).active + 1)

/-- What comes before the page `p` with links `q` now leads to what comes after it. -/
def bridgeNext (p : ℕ) (q : Page) : PageCache :=
  match q.lruPrev with
  | some r => s.modify r fun r => { r with lruNext := q.lruNext }
  | none => if s.head q.active = some p then s.setHead q.active q.lruNext else s

/-- What comes after the page `p` with links `q` now leads back to what comes before it. -/
def bridgePrev (p : ℕ) (q : Page) : PageCache :=
  match q.lruNext with
  | some r => s.modify r fun r => { r with lruPrev := q.lruPrev }
  | none => if s.tail q.active = some p then s.setTail q.active q.lruPrev else s

def lruUnlink (p : ℕ) : PageCache :=
  let q := s.gPool p
  let s := s.setN q.active (s.listN q.active - 1)
  let s := (s.bridgeNext p q).bridgePrev p q
  s.modify p fun q => { q with lruPrev := none, lruNext := none }

/-- `lru_touch`: a hit moves an inactive page to the active list and an active one to its end. -/
def lruTouch (p : ℕ) : PageCache :=
  if (s.gPool p).active then
    if s.gActiveTail = some p then s else (s.lruUnlink p).lruPush true p
  else
    ((s.lruUnlink p).modify p fun q => { q with active := true }).lruPush true p

def hashInsert (p : ℕ) : PageCache :=
  let b := bucketOf (s.gPool p).ctx (s.gPool p).off
  let s := s.modify p fun q => { q with next := s.gBucket b }
  { s with gBucket := update s.gBucket b (some p) }

/-- The loop of `hash_remove` once the chain's first page `q` is not `p`. -/
def hashRemoveAfter (p : ℕ) : ℕ → ℕ → PageCache
  | 0, _ => s
  | fuel + 1, q =>
    match (s.gPool q).next with
    | none => s
    | some r =>
      if r = p then s.modify q fun q => { q with next := (s.gPool p).next }
      else hashRemoveAfter p fuel r

def hashRemove (p : ℕ) : PageCache :=
  let b := bucketOf (s.gPool p).ctx (s.gPool p).off
  match s.gBucket b with
  | none => s
  | some q =>
    if q = p then { s with gBucket := update s.gBucket b (s.gPool p).next }
    else s.hashRemoveAfter p pcPages q

/-- The loop of `hash_find` from page `p` on. -/
def hashFindFrom (ctx off : ℕ) : ℕ → Option ℕ → Option ℕ
  | 0, _ => none
  | _ + 1, none => none
  | fuel + 1, some p =>
    if (s.gPool p).ctx = ctx ∧ (s.gPool p).off = off then some p
    else hashFindFrom ctx off fuel (s.gPool p).next

def hashFind (ctx off : ℕ) : Option ℕ :=
  s.hashFindFrom ctx off (pcPages + 1) (s.gBucket (bucketOf ctx off))

/-- The bytes `d` with those of the page at `off` replaced by `page`. -/
def putPage (d : Bytes) (off : ℕ) (page : Bytes) : Bytes := fun a =>
  if off ≤ a ∧ a < off + pcPage then page (a - off) else d a

def written (p : ℕ) : PageCache :=
  let q := s.gPool p
  { s.modify p fun q => { q with dirty := false } with
    gDirtyN := s.gDirtyN - 1
    disk := update s.disk q.ctx (putPage (s.disk q.ctx) q.off q.data)
    clock := s.clock + 1
    trace := .wrote q.ctx q.off q.data :: s.trace }

/-- The device failed to take page `p` and holds `junk` in its place. -/
def torn (p : ℕ) (junk : Bytes) : PageCache :=
  let q := s.gPool p
  { s with
    disk := update s.disk q.ctx (putPage (s.disk q.ctx) q.off junk)
    clock := s.clock + 1 }

variable (env : Env)

/-- `page_flush_one`: whether it returned 0. -/
def pageFlushOne (p : ℕ) : Bool × PageCache :=
  if ¬(s.gPool p).dirty ∨ ¬(s.gPool p).wr then (true, s)
  else
    match env.write s.clock with
    | some junk => (false, s.torn p junk)
    | none => (true, s.written p)

/-- One chain of `pagecache_flush_ctx` or `pagecache_flush_all`: flushes the dirty pages that `pick`
selects, and says whether no flush failed. -/
def flushChain (env : Env) (pick : Page → Bool) : ℕ → Option ℕ → PageCache → Bool × PageCache
  | 0, _, s => (true, s)
  | _ + 1, none, s => (true, s)
  | fuel + 1, some p, s =>
    if pick (s.gPool p) ∧ (s.gPool p).dirty then
      let (ok, s) := s.pageFlushOne env p
      let (ok', s) := flushChain env pick fuel (s.gPool p).next s
      (ok && ok', s)
    else flushChain env pick fuel (s.gPool p).next s

def flushBuckets (env : Env) (pick : Page → Bool) : List ℕ → PageCache → Bool × PageCache
  | [], s => (true, s)
  | b :: bs, s =>
    let (ok, s) := flushChain env pick (pcPages + 1) (s.gBucket b) s
    let (ok', s) := flushBuckets env pick bs s
    (ok && ok', s)

variable (ctx : ℕ)

def flushCtx : Bool × PageCache :=
  flushBuckets env (fun q => q.ctx == ctx) (range pcBuckets) s

def flushAll : Bool × PageCache :=
  flushBuckets env (fun _ => true) (range pcBuckets) s

/-- The balance loop of `page_alloc`: `n` pages from the head of the active list move to the end of
the inactive one. -/
def demote : ℕ → PageCache → PageCache
  | 0, s => s
  | n + 1, s =>
    match s.gActiveHead with
    | none => s
    | some p =>
      demote n (((s.lruUnlink p).modify p fun q => { q with active := false }).lruPush false p)

/-- The balance step of `page_alloc`. -/
def balance : PageCache :=
  if s.gInactiveN < s.gActiveN / 2 then demote (s.gActiveN / 2) s else s

/-- The victim loop of `page_alloc`: a page whose flush fails is skipped, not dropped. -/
def victim (env : Env) : ℕ → Option ℕ → PageCache → Option ℕ × PageCache
  | 0, _, s => (none, s)
  | _ + 1, none, s => (none, s)
  | fuel + 1, some v, s =>
    if (s.gPool v).dirty then
      let (ok, s) := s.pageFlushOne env v
      if ok then (some v, s) else victim env fuel (s.gPool v).lruNext s
    else (some v, s)

/-- `hash_remove(p); lru_unlink(p)`. -/
def drop (p : ℕ) : PageCache := (s.hashRemove p).lruUnlink p

/-- The end of `page_alloc`: page `p` now holds `(ctx, off)`. -/
def install (p ctx off : ℕ) : PageCache :=
  let s := s.modify p fun q =>
    { q with ctx, off, active := false, dirty := false, ra := false, wr := false, next := none }
  (s.hashInsert p).lruPush false p

def claim : PageCache := { s with gUsed := s.gUsed + 1, clock := s.clock + 1 }

def pageAlloc (ctx off : ℕ) : Option ℕ × PageCache :=
  if s.gUsed < pcPages then
    let p := s.gUsed
    -- The slot counts as used even when no frame is left for it.
    if env.frame s.clock then
      (some p, (s.claim.modify p fun q => { q with data := fun _ => 0 }).install p ctx off)
    else (none, s.claim)
  else
    let s := s.balance
    match victim env (pcPages + 1) s.gInactiveHead s with
    | (none, s) => (none, s)
    | (some p, s) => (some p, (s.drop p).install p ctx off)

/-- Fills page `p` from its device: `rd(ctx, poff, p->data, PC_PAGE)`, and whether it succeeded. -/
def devRead (p ctx poff : ℕ) : Bool × PageCache :=
  match env.read s.clock with
  | none =>
    (true, { s.modify p fun q => { q with data := fun i => s.disk ctx (poff + i) } with
      clock := s.clock + 1 })
  | some junk => (false, { s.modify p fun q => { q with data := junk } with clock := s.clock + 1 })

/-- The two steps that `pagecache_read`, `pagecache_write` and `ra_issue` take on a miss. -/
def fetch (ctx poff : ℕ) : Option ℕ × PageCache :=
  match s.pageAlloc env ctx poff with
  | (none, s) => (none, s)
  | (some p, s) =>
    match s.devRead env p ctx poff with
    | (true, s) => (some p, s)
    | (false, s) => (none, s.drop p)

def raFind : Option ℕ :=
  (range raTable).find? fun i => (s.gRa i).inUse && (s.gRa i).ctx == ctx

/-- `ra_get`: the entry of `ctx`, a free one, or the one whose turn it is to be stolen. -/
def raGet : ℕ × PageCache :=
  match s.raFind ctx with
  | some i => (i, s)
  | none =>
    let (i, s) := match (range raTable).find? fun i => !(s.gRa i).inUse with
      | some i => (i, s)
      | none => (s.gRaVictim % raTable, { s with gRaVictim := s.gRaVictim + 1 })
    (i, { s with
      gRa := update s.gRa i { ctx, lastPage := 2 ^ 64 - 1, window := raMin, inUse := true } })

/-- `ra_issue` from page `start + i` on, for `n` pages. -/
def raIssue (env : Env) (ctx start : ℕ) : ℕ → ℕ → PageCache → PageCache
  | _, 0, s => s
  | i, n + 1, s =>
    let poff := (start + i) * pcPage % 2 ^ 64
    match s.hashFind ctx poff with
    | some _ => raIssue env ctx start (i + 1) n s
    | none =>
      match s.fetch env ctx poff with
      | (none, s) => s
      | (some p, s) =>
        raIssue env ctx start (i + 1) n (s.modify p fun q => { q with ra := true })

def setRa (i : ℕ) (f : RaState → RaState) : PageCache :=
  { s with gRa := update s.gRa i (f (s.gRa i)) }

/-- A read of a page that readahead brought in widens the window of the entry `r`. -/
def raConsume (r p : ℕ) : PageCache :=
  if (s.gPool p).ra then
    let s := s.modify p fun q => { q with ra := false }
    if (s.gRa r).window < raMax then
      s.setRa r fun r => { r with window := min ((r.window + 1) * 2) raMax }
    else s
  else s

/-- A sequential read issues the window; another one starts the window anew. -/
def raAdvance (ctx r idx : ℕ) : PageCache :=
  if idx = add64 (s.gRa r).lastPage 1 then raIssue env ctx idx 1 (s.gRa r).window s
  else if idx ≠ (s.gRa r).lastPage then s.setRa r fun r => { r with window := raMin }
  else s

/-- The readahead of `pagecache_read` for the page `p` at page index `idx`. -/
def readahead (ctx p idx : ℕ) : PageCache :=
  let (r, s) := s.raGet ctx
  ((s.raConsume r p).raAdvance env ctx r idx).setRa r fun r => { r with lastPage := idx }

def pageOf (pos : ℕ) : ℕ := pos / pcPage * pcPage

/-- The page that holds offset `poff`: from the cache, or fetched on a miss. -/
def lookup (ctx poff : ℕ) : Option ℕ × PageCache :=
  match s.hashFind ctx poff with
  | some p => (some p, s.lruTouch p)
  | none => s.fetch env ctx poff

/-- The loop of `pagecache_read` from byte `done` on: the bytes copied to the buffer, or `none`
where it returns -1. -/
def readLoop (env : Env) (ctx off len : ℕ) :
    ℕ → ℕ → PageCache → Option (List (BitVec 8)) × PageCache
  | 0, _, s => (some [], s)
  | fuel + 1, done, s =>
    if len ≤ done then (some [], s)
    else
      let pos := add64 off done
      let n := min (len - done) (pcPage - pos % pcPage)
      match s.lookup env ctx (pageOf pos) with
      | (none, s) => (none, s)
      | (some p, s) =>
        let s := s.readahead env ctx p (pageOf pos / pcPage)
        let bytes := (range n).map fun i => (s.gPool p).data (pos % pcPage + i)
        match readLoop env ctx off len fuel (done + n) s with
        | (some rest, s) => (some (bytes ++ rest), s)
        | (none, s) => (none, s)

/-- A `uint32_t` returned as an `int`. -/
def toInt (n : ℕ) : ℤ := if n < 2 ^ 31 then n else n - 2 ^ 32

/-- `pagecache_read`: its result, and the bytes of the buffer when the loop ran to its end.  `rd`
says whether the read callback is set. -/
def read (rd : Bool) (off len : ℕ) : ℤ × List (BitVec 8) × PageCache :=
  if ctx = 0 ∨ ¬rd then (-1, [], s)
  else
    match readLoop env ctx off len len 0 s with
    | (some bytes, s) => (toInt len, bytes, s)
    | (none, s) => (-1, [], s)

def lookupForWrite (ctx poff : ℕ) : Option ℕ × PageCache :=
  match s.hashFind ctx poff with
  | some p => (some p, s)
  | none => s.fetch env ctx poff

/-- The bytes `d` with `bytes` copied over them from `start` on. -/
def patch (d : Bytes) (start : ℕ) (bytes : List (BitVec 8)) : Bytes := fun i =>
  if start ≤ i then (bytes[i - start]?).getD (d i) else d i

/-- Stores `bytes` at `pos` into page `p` and marks it dirty. -/
def storeBytes (ctx p pos : ℕ) (bytes : List (BitVec 8)) : PageCache :=
  let s := s.modify p fun q => { q with data := patch q.data (pos % pcPage) bytes, wr := true }
  let s := if (s.gPool p).dirty then s
    else { s.modify p fun q => { q with dirty := true } with gDirtyN := s.gDirtyN + 1 }
  { s with trace := .stored ctx pos bytes :: s.trace }

/-- The loop of `pagecache_write` from byte `done` on: the number of bytes written. -/
def writeLoop (env : Env) (ctx off : ℕ) (buf : List (BitVec 8)) :
    ℕ → ℕ → PageCache → ℕ × PageCache
  | 0, done, s => (done, s)
  | fuel + 1, done, s =>
    if buf.length ≤ done then (done, s)
    else
      let pos := add64 off done
      let n := min (buf.length - done) (pcPage - pos % pcPage)
      match s.lookupForWrite env ctx (pageOf pos) with
      | (none, s) => (done, s)
      | (some p, s) =>
        writeLoop env ctx off buf fuel (done + n) (s.storeBytes ctx p pos ((buf.drop done).take n))

/-- `pagecache_write` of the bytes `buf`: its result.  `wr` says whether the write callback is
set. -/
def write (wr : Bool) (off : ℕ) (buf : List (BitVec 8)) : ℤ × PageCache :=
  if ctx = 0 ∨ ¬wr then (-1, s)
  else
    let (done, s) := writeLoop env ctx off buf buf.length 0 s
    (if done < buf.length ∧ done = 0 then -1 else toInt done, s)

/-- `pagecache_invalidate` at one page of its device: a page whose flush fails stays. -/
def invalidateOne (p : ℕ) : Bool × PageCache :=
  let (ok, s) := if (s.gPool p).dirty then s.pageFlushOne env p else (true, s)
  (ok, if ok then (s.drop p).modify p fun q => { q with ctx := 0 } else s)

/-- The loop over one chain of `pagecache_invalidate`. -/
def invalidateChain (env : Env) (ctx : ℕ) : ℕ → Option ℕ → PageCache → Bool × PageCache
  | 0, _, s => (true, s)
  | _ + 1, none, s => (true, s)
  | fuel + 1, some p, s =>
    let next := (s.gPool p).next
    if (s.gPool p).ctx = ctx then
      let (ok, s) := s.invalidateOne env p
      let (ok', s) := invalidateChain env ctx fuel next s
      (ok && ok', s)
    else invalidateChain env ctx fuel next s

def invalidateBuckets (env : Env) (ctx : ℕ) : List ℕ → PageCache → Bool × PageCache
  | [], s => (true, s)
  | b :: bs, s =>
    let (ok, s) := invalidateChain env ctx (pcPages + 1) (s.gBucket b) s
    let (ok', s) := invalidateBuckets env ctx bs s
    (ok && ok', s)

def invalidate : Bool × PageCache :=
  invalidateBuckets env ctx (range pcBuckets) s

end PageCache

end Gnos
