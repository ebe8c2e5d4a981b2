import Gnos.ProofKit.Word

/-! The object caches of `src/mm/slab.c`.  A pointer that may be `NULL` is an `Option`; addresses
and the fixed-width fields are natural numbers whose arithmetic wraps as the source's types do.  The
answer of `kmalloc` is an argument, and an operation that ends in `panic` returns `none`. -/

namespace Gnos.Slab

open ProofKit Function

def alignMin : ℕ := 16
def colourAlign : ℕ := 64

/-- `SLAB_COLOUR_MAX`. -/
def colourLimit : ℕ := 16
def objMin : ℕ := 16
def maxSlabOrder : ℕ := 4
def acSize : ℕ := 16
def acBatch : ℕ := 8
def pageSize : ℕ := 4096

/-- `sizeof(kmem_slab_t)`. -/
def hdrSize : ℕ := 56
def hwcacheAlign : ℕ := 1

/-- `SLAB_PANIC`. -/
def panicFlag : ℕ := 2

inductive Which
  | slabsFull
  | slabsPartial
  | slabsFree
  deriving DecidableEq, Repr

structure Geometry where
  objSize : ℕ
  bufSize : ℕ
  align : ℕ
  flags : ℕ
  objsPerSlab : ℕ
  slabSize : ℕ
  colourMax : ℕ
  colourOff : ℕ
  /-- `ac[0].limit`. -/
  limit : ℕ := acSize
  deriving DecidableEq, Repr

/-- `struct kmem_cache`, with the array cache of processor 0 in `avail` and `entry`. -/
structure Cache extends Geometry where
  colourNext : ℕ := 0
  head : Which → Option ℕ := fun _ => none
  num : Which → ℕ := fun _ => 0
  avail : ℕ := 0
  entry : ℕ → ℕ := fun _ => 0

structure Header where
  next : Option ℕ := none
  prev : Option ℕ := none
  raw : ℕ := 0
  objmask : ℕ := 0
  freelist : Option ℕ := none
  inUse : ℕ := 0
  colour : ℕ := 0
  deriving DecidableEq, Repr

/-- The header after an object left the freelist, which now starts at `link`. -/
def Header.lose (link : Option ℕ) (t : Header) : Header :=
  { t with freelist := link, inUse := add32 t.inUse 1 }

/-- The header after the object `o` came to the front of the freelist. -/
def Header.gain (o : ℕ) (t : Header) : Header :=
  { t with freelist := some o, inUse := sub32 t.inUse 1 }

/-- A cache with the memory it works on: the headers, and the first word of every object. -/
structure Kmem where
  cache : Cache
  slab : ℕ → Header := fun _ => {}
  word : ℕ → Option ℕ := fun _ => none
  ready : Bool := true

def alignUp (v a : ℕ) : ℕ := sub64 (add64 v a) 1 &&& not64 (a - 1)

def isPow2 (v : ℕ) : Bool := v ≠ 0 && v &&& (v - 1) = 0

/-- The alignment that a request for `align` gets. -/
def effectiveAlign (align flags : ℕ) : ℕ :=
  let a := if align ≠ 0 then align else alignMin
  let a := if a < alignMin then alignMin else a
  let a := if flags &&& hwcacheAlign ≠ 0 then (if colourAlign < a then a else colourAlign) else a
  if isPow2 a then a else alignMin

def stride (size align flags : ℕ) : ℕ :=
  alignUp (if size < objMin then objMin else size) (effectiveAlign align flags) % 2 ^ 32

/-- Doubles the number of pages while an object and the header need more, `fuel` times at most. -/
def growPages (bufSize : ℕ) : ℕ → ℕ → ℕ
  | 0, pages => pages
  | fuel + 1, pages =>
    if pages * pageSize < bufSize + hdrSize ∧ pages < 2 ^ maxSlabOrder then
      growPages bufSize fuel (pages * 2)
    else pages

def colours (waste : ℕ) : ℕ :=
  let steps := waste / colourAlign
  if colourLimit < steps then colourLimit else if steps ≠ 0 then steps else 1

def geometry (size align flags : ℕ) : Geometry :=
  let bufSize := stride size align flags
  -- the loop doubles at most `SLAB_MAX_SLAB_ORDER` times before its second test stops it
  let slabSize := growPages bufSize maxSlabOrder 1 * pageSize
  let avail := slabSize - hdrSize
  let objs := avail / bufSize % 2 ^ 32
  let objsPerSlab := if objs ≠ 0 then objs else 1
  let waste := sub64 avail (objsPerSlab * bufSize)
  { objSize := size, bufSize, align := effectiveAlign align flags, flags, objsPerSlab, slabSize
    colourMax := colours waste, colourOff := colourAlign }

def Cache.fresh (g : Geometry) : Cache := { toGeometry := g }

/-- `kmem_cache_create`: `named` says that a name was given, `mem` that `kmalloc` had room for the
cache. -/
def kmemCacheCreate (named mem : Bool) (size align flags : ℕ) : Option Cache :=
  if !named || size = 0 || 64 * 1024 < size then none
  else if !mem then none
  else some (.fresh (geometry size align flags))

variable (s : Kmem) (w : Which) (b : ℕ)

namespace Kmem

def modify (f : Header → Header) : Kmem :=
  { s with slab := update s.slab b (f (s.slab b)) }

def setHead (v : Option ℕ) : Kmem :=
  { s with cache := { s.cache with head := update s.cache.head w v } }

def incNum : Kmem :=
  { s with cache := { s.cache with num := update s.cache.num w (add32 (s.cache.num w) 1) } }

def decNum : Kmem :=
  { s with cache := { s.cache with num := update s.cache.num w (sub32 (s.cache.num w) 1) } }

def linkBefore (h : Option ℕ) (b : ℕ) : Kmem :=
  match h with
  | some x => s.modify x fun t => { t with prev := some b }
  | none => s

def slabListAdd : Kmem :=
  let s := s.modify b fun t => { t with prev := none, next := s.cache.head w }
  let s := s.linkBefore (s.cache.head w) b
  s.setHead w (some b)

/-- What comes before `b` points past it. -/
def bridgeNext : Kmem :=
  match (s.slab b).prev with
  | some p => s.modify p fun t => { t with next := (s.slab b).next }
  | none => if s.cache.head w = some b then s.setHead w (s.slab b).next else s

/-- What comes after `b` points back past it. -/
def bridgePrev : Kmem :=
  match (s.slab b).next with
  | some n => s.modify n fun t => { t with prev := (s.slab b).prev }
  | none => s

def slabListDel : Kmem :=
  ((s.bridgeNext w b).bridgePrev b).modify b fun t => { t with prev := none, next := none }

end Kmem

/-- The start of the object area of a slab of colour `colour` whose run starts at `base`. -/
def Geometry.objs (g : Geometry) (base colour : ℕ) : ℕ :=
  add64 (sub64 (add64 base g.slabSize) (mul32 g.objsPerSlab g.bufSize)) (mul32 colour g.colourOff)

def Geometry.obj (g : Geometry) (base colour i : ℕ) : ℕ :=
  add64 (g.objs base colour) (mul32 i g.bufSize)

namespace Kmem

/-- Chains the first `i` objects of a slab in front of `freelist`, the last one first. -/
def chain (g : Geometry) (base colour : ℕ) :
    ℕ → Option ℕ → (ℕ → Option ℕ) → Option ℕ × (ℕ → Option ℕ)
  | 0, freelist, word => (freelist, word)
  | i + 1, freelist, word =>
    let o := g.obj base colour i
    chain g base colour i (some o) (update word o freelist)

def nextColour : Kmem :=
  { s with cache := { s.cache with
    colourNext := add32 s.cache.colourNext 1 % s.cache.colourMax } }

/-- The run that `slab_grow` cuts out of the block at `raw`, not yet on a list. -/
def carve (raw : ℕ) : Kmem :=
  let g := s.cache.toGeometry
  let base := alignUp raw g.slabSize
  let colour := s.cache.colourNext
  let (freelist, word) := chain g base colour g.objsPerSlab none s.word
  let header : Header :=
    { raw, objmask := not64 (g.slabSize - 1), freelist, inUse := 0, colour }
  { s.nextColour with slab := update s.slab base header, word }

/-- `slab_grow` for a block of `2 * slab_size` bytes at `raw`: the new slab. -/
def slabGrow (raw : ℕ) : ℕ × Kmem :=
  let base := alignUp raw s.cache.slabSize
  (base, ((s.carve raw).slabListAdd .slabsPartial base).incNum .slabsPartial)

/-- `entry[avail++] = o`. -/
def push (o : ℕ) : Kmem :=
  { s with cache := { s.cache with
    entry := update s.cache.entry s.cache.avail o
    avail := add32 s.cache.avail 1 } }

/-- `entry[--avail]`. -/
def pop : ℕ × Kmem :=
  let avail := sub32 s.cache.avail 1
  (s.cache.entry avail, { s with cache := { s.cache with avail } })

/-- Takes the first object `o` off the freelist of slab `b`, for the array cache. -/
def takeFree (b o : ℕ) : Kmem :=
  (s.modify b (Header.lose (s.word o))).push o

def toFull : Kmem :=
  (((s.slabListDel .slabsPartial b).slabListAdd .slabsFull b).decNum .slabsPartial).incNum
    .slabsFull

/-- The refill loop: up to `n` objects of slab `b` go to the array cache. -/
def refill (s : Kmem) (b : ℕ) : ℕ → Kmem
  | 0 => s
  | n + 1 =>
    match (s.slab b).freelist with
    | none => s
    | some o =>
      if s.cache.avail < s.cache.limit then
        let s := s.takeFree b o
        if (s.slab b).freelist = none then s.toFull b else refill s b n
      else s

/-- `kmem_cache_alloc`, where `raw` is what `kmalloc` would answer: the object, if there is one. -/
def kmemCacheAlloc (raw : Option ℕ) : Option (Option ℕ × Kmem) :=
  if !s.ready then some (none, s)
  else if s.cache.avail ≠ 0 then
    let (o, s) := s.pop
    some (some o, s)
  else
    match s.cache.head .slabsPartial, raw with
    | some b, _ =>
      let (o, s) := (s.refill b acBatch).pop
      some (some o, s)
    | none, some raw =>
      let (b, s) := s.slabGrow raw
      let (o, s) := (s.refill b acBatch).pop
      some (some o, s)
    | none, none => if s.cache.flags &&& panicFlag ≠ 0 then none else some (none, s)

def slabRehome : Kmem :=
  if (s.slab b).inUse = s.cache.objsPerSlab then (s.slabListAdd .slabsFull b).incNum .slabsFull
  else (s.slabListAdd .slabsPartial b).incNum .slabsPartial

def listOf : Which :=
  if (s.slab b).inUse = s.cache.objsPerSlab then .slabsFull
  else if (s.slab b).inUse = 0 then .slabsFree
  else .slabsPartial

/-- Chains the object `o` into the freelist of slab `b`. -/
def putFree (b o : ℕ) : Kmem :=
  { s with word := update s.word o (s.slab b).freelist }.modify b (Header.gain o)

def giveBack (o : ℕ) : Kmem :=
  let b := o &&& not64 (s.cache.slabSize - 1)
  let w := s.listOf b
  ((((s.slabListDel w b).decNum w).putFree b o).slabRehome b)

/-- The drain loop, for `n` objects in the array cache. -/
def drain (s : Kmem) : ℕ → Kmem
  | 0 => s
  | n + 1 =>
    let (o, s) := s.pop
    drain (s.giveBack o) n

def kmemCacheFree (o : ℕ) : Option Kmem :=
  if s.cache.avail < s.cache.limit then some (s.push o)
  else
    let s := s.drain s.cache.avail
    if s.cache.avail < s.cache.limit then some (s.push o) else none

end Kmem

end Gnos.Slab
