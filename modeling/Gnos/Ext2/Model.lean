import Mathlib

/-! The ext2 driver of `fs/ext2/ext2.c`.  A volume is modelled by its regions: the counters of the
superblock and of the group descriptors, the two bitmaps, the inode table, and the blocks.  A block
is kept in the reading its owner has of it, as block numbers, as bytes or as the records of a
directory; `zeroBlock` clears all three.  Counters wrap where their fields do.  Extent trees and the
block cache of a mounted device are left out. -/

namespace Gnos.Ext2

open Function List

/-- The bytes of a C string before its NUL. -/
abbrev Path := List UInt8

abbrev slash : UInt8 := 47

abbrev dot : UInt8 := 46

def rootIno : ℕ := 2
def ndirBlocks : ℕ := 12
def nBlocks : ℕ := 15
def nameMax : ℕ := 64
def deMin : ℕ := 8
def symlinkMax : ℕ := 4096
def pwMaxComp : ℕ := 64
def pwLoop : ℕ := 8
def sIfmt : ℕ := 0xF000
def sIfreg : ℕ := 0x8000
def sIfdir : ℕ := 0x4000
def sIflnk : ℕ := 0xA000

inductive Code where
  | ok | enoent | eexist | enospc | enotdir | enotempty | einval | eisdir
  deriving DecidableEq, Repr

/-- What `parse_sb` takes from the superblock, with what `mke2fs` guarantees: the bitmaps of a group
fit into one block each, and numbers into their fields. -/
structure Geometry where
  blockSize : ℕ
  blocksCount : ℕ
  firstDataBlock : ℕ
  blocksPerGroup : ℕ
  inodesCount : ℕ
  inodesPerGroup : ℕ
  firstIno : ℕ
  hasFiletype : Bool
  blockSize_mem : blockSize = 1024 ∨ blockSize = 2048 ∨ blockSize = 4096
  first_lt : firstDataBlock < blocksCount
  blocksCount_lt : blocksCount < 2 ^ 32
  blocksPerGroup_pos : 0 < blocksPerGroup
  blocksPerGroup_le : blocksPerGroup ≤ 8 * blockSize
  inodesPerGroup_pos : 0 < inodesPerGroup
  inodesPerGroup_le : inodesPerGroup ≤ 8 * blockSize
  inodesCount_lt : inodesCount < 2 ^ 32
  firstIno_gt : rootIno < firstIno
  root_le : rootIno ≤ inodesCount

namespace Geometry

/-- `n` blocks in one group of 16 inodes. -/
def small (n : ℕ) (hLow : 1 < n) (hHigh : n < 2 ^ 32) : Geometry :=
  ⟨1024, n, 1, 8192, 16, 16, 11, true, .inl rfl, hLow,
    hHigh, by decide, by decide, by decide, by decide, by decide, by decide, by decide⟩

variable (g : Geometry)

def groupCount : ℕ :=
  (g.blocksCount - g.firstDataBlock + g.blocksPerGroup - 1) / g.blocksPerGroup

/-- How many blocks group `n` covers; the last one is usually short. -/
def groupBlocks (n : ℕ) : ℕ :=
  min (g.blocksCount - (g.firstDataBlock + n * g.blocksPerGroup)) g.blocksPerGroup

def ppb : ℕ := g.blockSize / 4

/-- `blk_ptr` gives a pointer. -/
def ValidBlock (blk : ℕ) : Prop := blk ≠ 0 ∧ blk < g.blocksCount

instance (blk : ℕ) : Decidable (g.ValidBlock blk) := inferInstanceAs (Decidable (_ ∧ _))

/-- `inode_ptr` gives a pointer. -/
def ValidInode (ino : ℕ) : Prop := 1 ≤ ino ∧ ino ≤ g.inodesCount

instance (ino : ℕ) : Decidable (g.ValidInode ino) := inferInstanceAs (Decidable (_ ∧ _))

end Geometry

structure Inode where
  mode : ℕ := 0
  uid : ℕ := 0
  gid : ℕ := 0
  size : ℕ := 0
  links : ℕ := 0
  blocks : ℕ := 0
  atime : ℕ := 0
  ctime : ℕ := 0
  mtime : ℕ := 0
  dtime : ℕ := 0
  block : ℕ → ℕ := fun _ => 0

namespace Inode

variable (n : Inode)

def isDir : Bool := n.mode &&& sIfmt == sIfdir

def isLink : Bool := n.mode &&& sIfmt == sIflnk

end Inode

structure DirRec where
  ino : ℕ
  recLen : ℕ
  name : List UInt8
  fileType : ℕ
  deriving DecidableEq, Repr

structure Group where
  freeBlocks : ℕ
  freeInodes : ℕ
  usedDirs : ℕ

structure Volume where
  geo : Geometry
  allocHint : ℕ
  creatorUid : ℕ
  creatorGid : ℕ
  wtime : ℕ
  freeBlocks : ℕ
  freeInodes : ℕ
  group : ℕ → Group
  blockUsed : ℕ → Bool
  inodeUsed : ℕ → Bool
  inode : ℕ → Inode
  ptr : ℕ → ℕ → ℕ
  data : ℕ → ℕ → UInt8
  dir : ℕ → List DirRec

/-- What is on a volume: the inodes in use and the entries of the blocks in use. -/
structure Disk where
  inode : ℕ → Option Inode
  dir : ℕ → List DirRec

def Volume.disk (v : Volume) : Disk :=
  ⟨fun ino => if v.inodeUsed ino then some (v.inode ino) else none,
    fun blk => if v.blockUsed blk then v.dir blk else []⟩

def add16 (x y : ℕ) : ℕ := (x + y) % 2 ^ 16

def dec16 (x : ℕ) : ℕ := (x + (2 ^ 16 - 1)) % 2 ^ 16

def add32 (x y : ℕ) : ℕ := (x + y) % 2 ^ 32

def dec32 (x : ℕ) : ℕ := (x + (2 ^ 32 - 1)) % 2 ^ 32

namespace Volume

variable (v : Volume)

def setInode (ino : ℕ) (n : Inode) : Volume := { v with inode := update v.inode ino n }

def setDir (blk : ℕ) (recs : List DirRec) : Volume := { v with dir := update v.dir blk recs }

def fsNow : ℕ := if v.wtime = 0 then 0x40000000 else v.wtime

def zeroBlock (blk : ℕ) : Volume :=
  { v with
    ptr := update v.ptr blk fun _ => 0
    data := update v.data blk fun _ => 0
    dir := update v.dir blk [] }

def blockAt (g i : ℕ) : ℕ := v.geo.firstDataBlock + g * v.geo.blocksPerGroup + i

/-- The first free bit of group `g`, if its descriptor counts one. -/
def freeBit (g : ℕ) : Option ℕ :=
  if (v.group g).freeBlocks = 0 then none
  else (range (v.geo.groupBlocks g)).find? fun i => !v.blockUsed (v.blockAt g i)

/-- The group and the bit that `balloc` stops at: first fit, from the group of the last search. -/
def freeBlock? : Option (ℕ × ℕ) :=
  let hint := v.allocHint / v.geo.blocksPerGroup
  let start := if v.geo.groupCount ≤ hint then 0 else hint
  (range v.geo.groupCount).findSome? fun n =>
    let g := (start + n) % v.geo.groupCount
    (v.freeBit g).map fun i => (g, i)

def takeBlock (g i : ℕ) : Volume :=
  let blk := v.blockAt g i
  let d := v.group g
  { v.zeroBlock blk with
    blockUsed := update v.blockUsed blk true
    group := update v.group g { d with freeBlocks := dec16 d.freeBlocks }
    freeBlocks := dec32 v.freeBlocks
    allocHint := blk }

def balloc : Option (ℕ × Volume) :=
  v.freeBlock?.map fun p => (v.blockAt p.1 p.2, v.takeBlock p.1 p.2)

def bfree (blk : ℕ) : Volume :=
  if blk < v.geo.firstDataBlock ∨ v.geo.blocksCount ≤ blk then v
  else if !v.blockUsed blk then v
  else
    let g := (blk - v.geo.firstDataBlock) / v.geo.blocksPerGroup
    let d := v.group g
    { v with
      blockUsed := update v.blockUsed blk false
      group := update v.group g { d with freeBlocks := add16 d.freeBlocks 1 }
      freeBlocks := add32 v.freeBlocks 1
      allocHint := if blk < v.allocHint then blk else v.allocHint }

def inoAt (g i : ℕ) : ℕ := g * v.geo.inodesPerGroup + i + 1

/-- The first free inode of group `g` that a file may use. -/
def freeIno (g : ℕ) : Option ℕ :=
  if (v.group g).freeInodes = 0 then none
  else (range v.geo.inodesPerGroup).find? fun i =>
    v.inoAt g i ≤ v.geo.inodesCount && v.geo.firstIno ≤ v.inoAt g i && !v.inodeUsed (v.inoAt g i)

def freeInode? : Option (ℕ × ℕ) :=
  (range v.geo.groupCount).findSome? fun g => (v.freeIno g).map fun i => (g, i)

def takeInode (g i : ℕ) (isdir : Bool) : Volume :=
  let d := v.group g
  { v with
    inodeUsed := update v.inodeUsed (v.inoAt g i) true
    group := update v.group g
      { d with
        freeInodes := dec16 d.freeInodes
        usedDirs := if isdir then add16 d.usedDirs 1 else d.usedDirs }
    freeInodes := dec32 v.freeInodes
    inode := update v.inode (v.inoAt g i) {} }

def ialloc (isdir : Bool) : Option (ℕ × Volume) :=
  v.freeInode?.map fun p => (v.inoAt p.1 p.2, v.takeInode p.1 p.2 isdir)

def ifree (ino : ℕ) (isdir : Bool) : Volume :=
  if ino < v.geo.firstIno ∨ v.geo.inodesCount < ino then v
  else if !v.inodeUsed ino then v
  else
    let g := (ino - 1) / v.geo.inodesPerGroup
    let d := v.group g
    { v with
      inodeUsed := update v.inodeUsed ino false
      group := update v.group g
        { d with
          freeInodes := add16 d.freeInodes 1
          usedDirs := if isdir then dec16 d.usedDirs else d.usedDirs }
      freeInodes := add32 v.freeInodes 1 }

end Volume

/-- A place for a block number: an entry of `i_block`, or of an indirect block. -/
inductive Slot where
  | inode (ino i : ℕ)
  | ptr (blk i : ℕ)
  deriving DecidableEq

namespace Volume

variable (v : Volume)

def slot : Slot → ℕ
  | .inode ino i => (v.inode ino).block i
  | .ptr blk i => v.ptr blk i

def setBlock (ino i blk : ℕ) : Volume :=
  v.setInode ino { v.inode ino with block := update (v.inode ino).block i blk }

def setSlot (s : Slot) (blk : ℕ) : Volume :=
  match s with
  | .inode ino i => v.setBlock ino i blk
  | .ptr b i => { v with ptr := update v.ptr b (update (v.ptr b) i blk) }

/-- The block a slot names, created when asked; the last component counts the blocks created. -/
def slotGet (s : Slot) (alloc : Bool) (added : ℕ) : Volume × ℕ × ℕ :=
  if v.slot s ≠ 0 ∨ !alloc then (v, v.slot s, added)
  else match v.balloc with
    | none => (v, 0, added)
    | some (blk, v') => (v'.setSlot s blk, blk, added + 1)

/-- The entry of `i_block` and the entries of indirect blocks that lead to block `iblk` of a
file. -/
def mapPath (iblk : ℕ) : Option (ℕ × List ℕ) :=
  let ppb := v.geo.ppb
  let single := iblk - ndirBlocks
  let double := single - ppb
  let triple := double - ppb * ppb
  if iblk < ndirBlocks then some (iblk, [])
  else if single < ppb then some (12, [single])
  else if double < ppb * ppb then some (13, [double / ppb, double % ppb])
  else if ppb ≠ 0 ∧ triple / ppb < ppb * ppb then
    some (14, [triple / (ppb * ppb), triple / ppb % ppb, triple % ppb])
  else none

def descend (alloc : Bool) : Volume → Slot → List ℕ → ℕ → Volume × ℕ × ℕ
  | v, s, [], added => v.slotGet s alloc added
  | v, s, i :: is, added =>
    let r := v.slotGet s alloc added
    if r.1.geo.ValidBlock r.2.1 then descend alloc r.1 (.ptr r.2.1 i) is r.2.2 else (r.1, 0, r.2.2)

def bmap (ino iblk : ℕ) (alloc : Bool) (added : ℕ) : Volume × ℕ × ℕ :=
  match v.mapPath iblk with
  | none => (v, 0, added)
  | some (i, is) => descend alloc v (.inode ino i) is added

def blockOf (ino iblk : ℕ) : ℕ := (v.bmap ino iblk false 0).2.1

def freeTree : ℕ → ℕ → Volume → Volume
  | 0, blk, v => if blk = 0 then v else v.bfree blk
  | l + 1, blk, v =>
    if blk = 0 then v
    else
      (if v.geo.ValidBlock blk then
        (range v.geo.ppb).foldl (fun w i => freeTree l (w.ptr blk i) w) v
      else v).bfree blk

/-- The level of the blocks that entry `i` of `i_block` names. -/
def levelOf (i : ℕ) : ℕ := i - 11

variable (ino : ℕ)

def freeSlots : Volume :=
  (range nBlocks).foldl (fun w i => freeTree (levelOf i) ((w.inode ino).block i) w) v

def inodeFreeBlocks : Volume :=
  let w := v.freeSlots ino
  w.setInode ino { w.inode ino with block := fun _ => 0, blocks := 0 }

def inodeAddBlocks (ino added : ℕ) : Volume :=
  if added = 0 then v
  else
    let n := v.inode ino
    v.setInode ino { n with blocks := add32 n.blocks (added * (v.geo.blockSize / 512)) }

def readByte (ino off : ℕ) : UInt8 :=
  let blk := v.blockOf ino (off / v.geo.blockSize)
  if v.geo.ValidBlock blk then v.data blk (off % v.geo.blockSize) else 0

def read (ino off len : ℕ) : List UInt8 :=
  if v.geo.ValidInode ino then
    (range (min len ((v.inode ino).size - off))).map fun k => v.readByte ino (off + k)
  else []

/-- Where a record is: its block, its index there, and its offset in the directory. -/
structure Place where
  blk : ℕ
  pos : ℕ
  off : ℕ
  entry : DirRec

/-- The index of the record that starts `o` bytes into a block. -/
def recAt : List DirRec → ℕ → ℕ → Option (ℕ × DirRec)
  | [], _, _ => none
  | r :: rs, pos, o => if o = 0 then some (pos, r)
      else if o < r.recLen then none else recAt rs (pos + 1) (o - r.recLen)

def deAt (dino off : ℕ) : Option Place :=
  let blk := v.blockOf dino (off / v.geo.blockSize)
  if v.geo.ValidBlock blk then
    (recAt (v.dir blk) 0 (off % v.geo.blockSize)).map fun p => ⟨blk, p.1, off, p.2⟩
  else none

/-- The records from `off` on, as every loop over a directory meets them: it stops at a missing
block and at a record length that would not carry it forward. -/
def streamFrom (dino : ℕ) : ℕ → ℕ → List Place
  | 0, _ => []
  | turns + 1, off =>
    let size := (v.inode dino).size
    if off + deMin ≤ size then
      match v.deAt dino off with
      | none => []
      | some p =>
        if p.entry.recLen < deMin ∨ p.entry.recLen % 4 ≠ 0 ∨ size < off + p.entry.recLen then []
        else p :: streamFrom dino turns (off + p.entry.recLen)
    else []

variable (dino : ℕ)

def stream : List Place := v.streamFrom dino ((v.inode dino).size / deMin + 1) 0

def isDirAt : Bool := v.geo.ValidInode dino && (v.inode dino).isDir

variable (name : List UInt8)

def dirFind : ℕ :=
  if v.isDirAt dino then
    match (v.stream dino).find? fun p => p.entry.ino != 0 && p.entry.name == name with
    | none => 0
    | some p => p.entry.ino
  else 0

def nameIsDot : Bool := name == [dot] || name == [dot, dot]

/-- `readdir` hides `.` and `..`, so an empty directory yields nothing. -/
def dirIsEmpty : Bool :=
  !(v.isDirAt dino && (v.stream dino).any fun p => p.entry.ino != 0 && !nameIsDot p.entry.name)

def entNeed (len : ℕ) : ℕ := (deMin + len + 3) / 4 * 4

def usedOf (r : DirRec) : ℕ := if r.ino = 0 then 0 else entNeed r.name.length

def modeToFt (mode : ℕ) : ℕ :=
  if mode &&& sIfmt = sIfdir then 2 else if mode &&& sIfmt = sIflnk then 7 else 1

/-- `put_entry`: the inode, name and type of an entry that spans `recLen` bytes. -/
def putEntry (ino recLen : ℕ) (name : List UInt8) (ft : ℕ) : DirRec :=
  ⟨ino, recLen, name, if v.geo.hasFiletype then ft else 0⟩

/-- The record `r` gives its free space, or all of it when it is unused, to a new entry. -/
def splitRec (r : DirRec) (ino : ℕ) (name : List UInt8) (ft : ℕ) : List DirRec :=
  if usedOf r = 0 then [v.putEntry ino r.recLen name ft]
  else [{ r with recLen := usedOf r }, v.putEntry ino (r.recLen - usedOf r) name ft]

def replaceAt (recs : List DirRec) (pos : ℕ) (new : List DirRec) : List DirRec :=
  recs.take pos ++ new ++ recs.drop (pos + 1)

def dirGrow (ino ft : ℕ) : Volume × Code :=
  let size := (v.inode dino).size
  let r := v.bmap dino (size / v.geo.blockSize) true 0
  if v.geo.ValidBlock r.2.1 then
    let w := ((r.1.inodeAddBlocks dino r.2.2).zeroBlock r.2.1).setDir r.2.1
      [v.putEntry ino v.geo.blockSize name ft]
    (w.setInode dino { w.inode dino with size := add32 size v.geo.blockSize }, .ok)
  else (r.1, .enospc)

def dirAdd (ino childMode : ℕ) : Volume × Code :=
  if name.length = 0 ∨ 255 < name.length then (v, .einval)
  else if ¬v.geo.ValidInode dino then (v, .enoent)
  else if !(v.inode dino).isDir then (v, .enotdir)
  else
    let ft := modeToFt childMode
    match (v.stream dino).find? fun p => entNeed name.length ≤ p.entry.recLen - usedOf p.entry with
    | some p =>
      (v.setDir p.blk (replaceAt (v.dir p.blk) p.pos (v.splitRec p.entry ino name ft)), .ok)
    | none => v.dirGrow dino name ino ft

def findWithPrev (name : List UInt8) : Option Place → List Place → Option (Option Place × Place)
  | _, [] => none
  | prev, p :: ps =>
    if p.entry.ino ≠ 0 ∧ p.entry.name = name then some (prev, p) else findWithPrev name (some p) ps

/-- The entry is swallowed by the one before it in its block; the first of a block is marked
free. -/
def dropPlace (prev : Option Place) (p : Place) : Volume :=
  let bs := v.geo.blockSize
  match prev with
  | some q =>
    if q.off / bs = p.off / bs then
      v.setDir p.blk (replaceAt ((v.dir p.blk).eraseIdx p.pos) q.pos
        [{ q.entry with recLen := add16 q.entry.recLen p.entry.recLen }])
    else v.setDir p.blk (replaceAt (v.dir p.blk) p.pos [{ p.entry with ino := 0 }])
  | none => v.setDir p.blk (replaceAt (v.dir p.blk) p.pos [{ p.entry with ino := 0 }])

def dirRemove : Volume × Code :=
  if ¬v.geo.ValidInode dino then (v, .enoent)
  else if !(v.inode dino).isDir then (v, .enotdir)
  else match findWithPrev name none (v.stream dino) with
    | none => (v, .enoent)
    | some (prev, p) => (v.dropPlace prev p, .ok)

def components (path : Path) : List (List UInt8) :=
  ((path.splitOn slash).filter fun c => c ≠ []).map fun c => c.take (nameMax - 1)

/-- The bytes of `i_block`, read as text. -/
def inlineByte (n : Inode) (k : ℕ) : UInt8 := UInt8.ofNat (n.block (k / 4) / 256 ^ (k % 4))

/-- `read_symlink_target` for a link, up to the NUL.  A target of at most 60 bytes is taken from the
inode itself. -/
def linkTarget : Path :=
  let n := v.inode ino
  let len := if n.size < symlinkMax then n.size else symlinkMax - 1
  let bytes := if n.size ≤ 60 then (range len).map (inlineByte n) else v.read ino 0 len
  bytes.takeWhile (· ≠ 0)

/-- What `path_walk` reports: the inode or 0, the directory that holds the last name, and that name.
A walk that fails on the way reports nothing. -/
structure Walk where
  ino : ℕ
  parent : ℕ
  leaf : List UInt8
  deriving DecidableEq

def Walk.nothing : Walk := ⟨0, 0, []⟩

/-- The components after a link at index `i` was replaced by its target. -/
def splice (comps : List (List UInt8)) (i : ℕ) (target : Path) : List (List UInt8) :=
  if target.head? = some slash then components target
  else comps.take i ++ components target ++ comps.drop (i + 1)

/-- The loop over the components.  There is no result when it takes more turns than given, when the
names after a replacement do not fit the array, and when no name is left: the last one is then read
from outside the array. -/
def walkFrom (follow : Bool) : ℕ → List (List UInt8) → ℕ → ℕ → ℕ → ℕ → Option Walk
  | 0, _, _, _, _, _ => none
  | turns + 1, comps, i, cwd, cur, parent =>
    match comps[i]? with
    | none => comps.getLast?.map fun leaf => ⟨cur, parent, leaf⟩
    | some name =>
      let ino := v.dirFind cwd name
      let last := i + 1 = comps.length
      if ino = 0 then some (if last then ⟨0, cwd, name⟩ else .nothing)
      else if ¬v.geo.ValidInode ino then some .nothing
      else if (v.inode ino).isLink then
        if last ∧ !follow then some ⟨ino, cwd, name⟩
        else if pwLoop ≤ i then some .nothing
        else
          let target := v.linkTarget ino
          let comps' := splice comps i target
          if pwMaxComp < (components target).length then some .nothing
          else if pwMaxComp < comps'.length then none
          else if target.head? = some slash then walkFrom follow turns comps' 0 rootIno cur parent
          else walkFrom follow turns comps' i cwd cur parent
      else if (v.inode ino).isDir then walkFrom follow turns comps (i + 1) ino ino cwd
      else some (if last then ⟨ino, cwd, name⟩ else .nothing)

variable (turns : ℕ) (path : Path)

def pathWalk (follow : Bool) : Option Walk :=
  if path.head? ≠ some slash then some .nothing
  else
    let comps := components (path.take (symlinkMax - 1))
    if pwMaxComp < comps.length then some .nothing
    else if comps = [] then some ⟨rootIno, rootIno, []⟩
    else v.walkFrom follow turns comps 0 rootIno rootIno rootIno

structure Dirent where
  ino : ℕ
  size : ℕ
  mode : ℕ
  uid : ℕ
  gid : ℕ

def entFill : Dirent :=
  if v.geo.ValidInode ino then
    let n := v.inode ino
    ⟨ino, n.size, n.mode, n.uid, n.gid⟩
  else ⟨ino, 0, 0, 0, 0⟩

/-- `ext2_lookup`; the inner `none` is a name that does not exist. -/
def lookup (follow : Bool) : Option (Option Dirent) :=
  (v.pathWalk turns path follow).map fun w => if w.ino = 0 then none else some (v.entFill w.ino)

def storeBytes (blk skip : ℕ) (bytes : List UInt8) : Volume :=
  { v with
    data := update v.data blk fun o =>
      if skip ≤ o ∧ o < skip + bytes.length then bytes.getD (o - skip) 0 else v.data blk o }

/-- The loop of `ext2_write`, one block a turn: the volume, the bytes stored and the blocks
added. -/
def writeLoop (ino off : ℕ) (bytes : List UInt8) : ℕ → Volume → ℕ → ℕ → Volume × ℕ × ℕ
  | 0, v, done, added => (v, done, added)
  | turns + 1, v, done, added =>
    if done < bytes.length then
      let bs := v.geo.blockSize
      let at_ := (off + done) % 2 ^ 32
      let skip := at_ % bs
      let take := min (bs - skip) (bytes.length - done)
      let r := v.bmap ino (at_ / bs) true added
      if r.1.geo.ValidBlock r.2.1 then
        writeLoop ino off bytes turns (r.1.storeBytes r.2.1 skip ((bytes.drop done).take take))
          (done + take) r.2.2
      else (r.1, done, r.2.2)
    else (v, done, added)

def write (ino off : ℕ) (bytes : List UInt8) : Volume × ℕ :=
  if ino = 0 ∨ bytes = [] ∨ ¬v.geo.ValidInode ino ∨ (v.inode ino).isDir then (v, 0)
  else
    let r := writeLoop ino off bytes bytes.length v 0 0
    let w := r.1.inodeAddBlocks ino r.2.2
    let size := (off + r.2.1) % 2 ^ 32
    (w.setInode ino { w.inode ino with size := max (w.inode ino).size size }, r.2.1)

def truncate : Volume × Code :=
  if ino = 0 then (v, .einval)
  else if ¬v.geo.ValidInode ino then (v, .enoent)
  else if (v.inode ino).isDir then (v, .einval)
  else
    let w := v.inodeFreeBlocks ino
    (w.setInode ino { w.inode ino with size := 0 }, .ok)

def clearTail (ino cur : ℕ) : ℕ → ℕ → Volume → Volume
  | 0, _, v => v
  | turns + 1, off, v =>
    if off < cur then
      let bs := v.geo.blockSize
      let skip := off % bs
      let take := min (bs - skip) (cur - off)
      let blk := v.blockOf ino (off / bs)
      clearTail ino cur turns (off + take)
        (if v.geo.ValidBlock blk then v.storeBytes blk skip (replicate take 0) else v)
    else v

def setsize (ino len : ℕ) : Volume × Code :=
  if ino = 0 ∨ 0xFFFFFFFF < len then (v, .einval)
  else if ¬v.geo.ValidInode ino then (v, .enoent)
  else if (v.inode ino).isDir then (v, .einval)
  else if len = 0 then v.truncate ino
  else
    let cur := (v.inode ino).size
    let w := clearTail ino cur (cur - len) len v
    (w.setInode ino { w.inode ino with size := len }, .ok)

def chmod (ino mode : ℕ) : Volume × Code :=
  if ino = 0 then (v, .einval)
  else if ¬v.geo.ValidInode ino then (v, .enoent)
  else
    let n := v.inode ino
    (v.setInode ino { n with mode := (n.mode &&& sIfmt) ||| (mode &&& 0x0FFF), ctime := v.fsNow },
      .ok)

def keepId : ℕ := 2 ^ 32 - 1

def chown (ino uid gid : ℕ) : Volume × Code :=
  if ino = 0 then (v, .einval)
  else if (uid ≠ keepId ∧ 0xFFFF < uid) ∨ (gid ≠ keepId ∧ 0xFFFF < gid) then (v, .einval)
  else if ¬v.geo.ValidInode ino then (v, .enoent)
  else
    let n := v.inode ino
    -- the set-id bits of a file that anyone can execute go away
    let mode := if !n.isDir ∧ n.mode &&& 0o111 ≠ 0 then n.mode &&& (0xFFFF - 0o6000) else n.mode
    (v.setInode ino
      { n with
        uid := if uid = keepId then n.uid else uid
        gid := if gid = keepId then n.gid else gid
        mode := mode
        ctime := v.fsNow }, .ok)

def newInode (mode links : ℕ) : Inode :=
  { mode := mode
    uid := v.creatorUid % 2 ^ 16
    gid := v.creatorGid % 2 ^ 16
    links := links
    atime := v.fsNow
    ctime := v.fsNow
    mtime := v.fsNow }

/-- `.` takes the minimum of 12 bytes and `..` the rest of the block. -/
def dotEntries (ino parent : ℕ) : List DirRec :=
  [v.putEntry ino 12 [dot] 1, v.putEntry parent (v.geo.blockSize - 12) [dot, dot] 1]

def initDir (ino parent : ℕ) : Volume × Bool :=
  let r := v.bmap ino 0 true 0
  if v.geo.ValidBlock r.2.1 then
    let w := ((r.1.inodeAddBlocks ino r.2.2).zeroBlock r.2.1).setDir r.2.1 (v.dotEntries ino parent)
    (w.setInode ino { w.inode ino with size := v.geo.blockSize }, true)
  else (r.1, false)

def bumpLinks : Volume :=
  v.setInode ino { v.inode ino with links := add16 (v.inode ino).links 1 }

/-- A directory that loses a child loses the link of its `..`. -/
def dropLink : Volume :=
  if v.geo.ValidInode ino ∧ 1 < (v.inode ino).links then
    v.setInode ino { v.inode ino with links := (v.inode ino).links - 1 }
  else v

variable (isdir : Bool)

def abandon : Volume := (v.inodeFreeBlocks ino).ifree ino isdir

def createMode : ℕ := if isdir then sIfdir ||| 0o755 else sIfreg ||| 0o644

/-- `ext2_create` after its walk, for a name that is missing. -/
def createAt (parent : ℕ) (leaf : List UInt8) (isdir : Bool) : Volume × Code :=
  if parent = 0 then (v, .enoent)
  else if leaf.length = 0 ∨ 255 < leaf.length then (v, .einval)
  else if ¬v.geo.ValidInode parent then (v, .enoent)
  else if !(v.inode parent).isDir then (v, .enotdir)
  else match v.ialloc isdir with
    | none => (v, .enospc)
    | some (ino, v₁) =>
      let v₂ := v₁.setInode ino (v.newInode (createMode isdir) (if isdir then 2 else 1))
      let r := if isdir then v₂.initDir ino parent else (v₂, true)
      if !r.2 then (r.1.abandon ino true, .enospc)
      else
        let a := r.1.dirAdd parent leaf ino (createMode isdir)
        if a.2 ≠ .ok then (a.1.abandon ino isdir, a.2)
        else (if isdir then a.1.bumpLinks parent else a.1, .ok)

def create : Option (Volume × Code) :=
  if path.head? ≠ some slash then some (v, .einval)
  else (v.pathWalk turns path false).map fun w =>
    if w.ino ≠ 0 then (v, .eexist) else v.createAt w.parent w.leaf isdir

def destroy : Volume :=
  let w := v.inodeFreeBlocks ino
  (w.setInode ino { w.inode ino with size := 0, dtime := w.fsNow }).ifree ino isdir

def setLinks (ino links : ℕ) : Volume := v.setInode ino { v.inode ino with links := links }

def unref : Volume :=
  let links := (v.inode ino).links - 1
  let w := v.setLinks ino links
  if links = 0 then w.destroy ino false else w

def unrefDir (ino parent : ℕ) : Volume := ((v.dropLink parent).setLinks ino 0).destroy ino true

/-- `ext2_unlink` after its walk. -/
def unlinkAt (w : Walk) : Volume × Code :=
  if w.ino = 0 then (v, .enoent)
  else if w.leaf = [] ∨ w.ino = rootIno then (v, .einval)
  else if ¬v.geo.ValidInode w.ino then (v, .enoent)
  else
    let isdir := (v.inode w.ino).isDir
    if isdir ∧ !v.dirIsEmpty w.ino then (v, .enotempty)
    else
      let r := v.dirRemove w.parent w.leaf
      if r.2 ≠ .ok then r
      else (if isdir then r.1.unrefDir w.ino w.parent else r.1.unref w.ino, .ok)

def unlink : Option (Volume × Code) :=
  if path.head? ≠ some slash then some (v, .einval)
  else (v.pathWalk turns path false).map fun w => v.unlinkAt w

/-- `ext2_symlink` after its walk, for a name that is missing. -/
def symlinkAt (target : Path) (parent : ℕ) (leaf : List UInt8) : Volume × Code :=
  if parent = 0 then (v, .enoent)
  else if leaf.length = 0 ∨ 255 < leaf.length then (v, .einval)
  else if ¬v.geo.ValidInode parent then (v, .enoent)
  else if !(v.inode parent).isDir then (v, .enotdir)
  else match v.ialloc false with
    | none => (v, .enospc)
    | some (ino, v₁) =>
      -- the target goes to a data block, however short it is
      let r := (v₁.setInode ino (v.newInode (sIflnk ||| 0o777) 1)).write ino 0 target
      if r.2 ≠ target.length then (r.1.abandon ino false, .enospc)
      else
        let w := r.1.setInode ino { r.1.inode ino with size := target.length }
        let a := w.dirAdd parent leaf ino (sIflnk ||| 0o777)
        if a.2 ≠ .ok then (a.1.abandon ino false, a.2) else (a.1, .ok)

def symlink (target path : Path) : Option (Volume × Code) :=
  if path.head? ≠ some slash ∨ target = [] ∨ symlinkMax ≤ target.length then some (v, .einval)
  else (v.pathWalk turns path false).map fun w =>
    if w.ino ≠ 0 then (v, .eexist) else v.symlinkAt target w.parent w.leaf

/-- `ext2_link` after its walks, for a source that exists and a name that is missing. -/
def linkAt (src : ℕ) (parent : ℕ) (leaf : List UInt8) : Volume × Code :=
  if parent = 0 then (v, .enoent)
  else if leaf.length = 0 ∨ 255 < leaf.length then (v, .einval)
  else if ¬v.geo.ValidInode parent then (v, .enoent)
  else if !(v.inode parent).isDir then (v, .enotdir)
  else
    let a := v.dirAdd parent leaf src (v.inode src).mode
    if a.2 ≠ .ok then a
    else (if v.geo.ValidInode src then a.1.bumpLinks src else a.1, .ok)

def link (oldpath newpath : Path) : Option (Volume × Code) :=
  if oldpath.head? ≠ some slash ∨ newpath.head? ≠ some slash then some (v, .einval)
  else (v.pathWalk turns oldpath false).bind fun s =>
    if s.ino = 0 then some (v, .enoent)
    else if (v.entFill s.ino).mode &&& sIfmt = sIfdir then some (v, .eisdir)
    else (v.pathWalk turns newpath false).map fun w =>
      if w.ino ≠ 0 then (v, .eexist) else v.linkAt s.ino w.parent w.leaf

/-- The last part of `ext2_rename`: the new name, then the old one, then the links of the two
parents.  The `..` of a directory stays as it is. -/
def moveEntry (s d : Walk) : Volume × Code :=
  let smode := (v.inode s.ino).mode
  let a := v.dirAdd d.parent d.leaf s.ino smode
  if a.2 ≠ .ok then a
  else
    let r := a.1.dirRemove s.parent s.leaf
    if r.2 ≠ .ok then r
    else if (v.inode s.ino).isDir then
      let w := r.1.dropLink s.parent
      (if v.geo.ValidInode d.parent then w.bumpLinks d.parent else w, .ok)
    else (r.1, .ok)

/-- The destination's old name goes first, and its inode with the last name. -/
def replaceTarget (d : Walk) : Volume × Code :=
  if d.ino = 0 then (v, .ok)
  else
    let r := v.dirRemove d.parent d.leaf
    if r.2 ≠ .ok then r
    else (if (v.inode d.ino).isDir then r.1.unrefDir d.ino d.parent else r.1.unref d.ino, .ok)

/-- `ext2_rename` after its walks; `inside` says that the destination's text continues the
source's. -/
def renameAt (s d : Walk) (inside : Bool) : Volume × Code :=
  if d.ino = rootIno ∨ d.parent = 0 ∨ d.leaf = [] then (v, .einval)
  else
    let sisdir := (v.inode s.ino).isDir
    let there := d.ino ≠ 0 ∧ v.geo.ValidInode d.ino
    let disdir := (v.inode d.ino).isDir
    if sisdir ∧ inside then (v, .einval)
    else if sisdir ∧ there ∧ !disdir then (v, .enotdir)
    else if !sisdir ∧ there ∧ disdir then (v, .eisdir)
    else if sisdir ∧ there ∧ disdir ∧ !v.dirIsEmpty d.ino then (v, .enotempty)
    else
      let t := v.replaceTarget d
      if t.2 ≠ .ok then t else t.1.moveEntry s d

def insideOf (src dst : Path) : Bool :=
  dst.take src.length == src &&
    (dst.drop src.length == [] || (dst.drop src.length).head? == some slash)

def rename (src dst : Path) : Option (Volume × Code) :=
  if src.head? ≠ some slash ∨ dst.head? ≠ some slash then some (v, .einval)
  else if src = dst then some (v, .ok)
  else (v.pathWalk turns src false).bind fun s =>
    if s.ino = 0 then some (v, .enoent)
    else if s.ino = rootIno then some (v, .einval)
    else if ¬v.geo.ValidInode s.ino then some (v, .enoent)
    else (v.pathWalk turns dst false).map fun d => v.renameAt s d (insideOf src dst)

end Volume

end Gnos.Ext2
