import Gnos.Vfs.Model

/-! `vfs_mount_bdev` of `src/fs/vfs.c`, with the mount attempts of the ext2 and the ISO driver that
it makes, and the other calls that change the mount table.  What a driver keeps of a mounted volume
is its geometry and the device it is on.  The FAT driver's attempts are given by their outcome. -/

namespace Gnos.Vfs

open Ext2 (Path)

/-- A device node; `read off len` is what a read gives, if it does not fail. -/
structure Dev where
  isBlock : Bool
  size : ℕ
  read : ℕ → ℕ → Option (ℕ → UInt8)

/-- `iso_read_lba`. -/
def Dev.sector (d : Dev) (lba : ℕ) : Option (ℕ → UInt8) := d.read (lba * 2048) 2048

def rd16 (p : ℕ → UInt8) (off : ℕ) : ℕ := (p off).toNat + (p (off + 1)).toNat * 2 ^ 8

def rd32 (p : ℕ → UInt8) (off : ℕ) : ℕ := rd16 p off + rd16 p (off + 2) * 2 ^ 16

structure Ext2Fs where
  blockSize : ℕ := 0
  inodesCount : ℕ := 0
  blocksCount : ℕ := 0
  firstDataBlock : ℕ := 0
  blocksPerGroup : ℕ := 0
  inodesPerGroup : ℕ := 0
  inodeSize : ℕ := 0
  firstIno : ℕ := 0
  hasFiletype : Bool := false
  hasExtents : Bool := false
  has64bit : Bool := false
  descSize : ℕ := 0
  groupCount : ℕ := 0
  gdtOff : ℕ := 0
  allocHint : ℕ := 0
  creatorUid : ℕ := 0
  creatorGid : ℕ := 0

/-- The end of `parse_sb`: groups cover everything from the first data block onwards. -/
def parseGroups (fs : Ext2Fs) : Bool × Ext2Fs :=
  let span := (fs.blocksCount + (2 ^ 32 - fs.firstDataBlock)) % 2 ^ 32
  let fs := { fs with
    groupCount := (span + fs.blocksPerGroup + (2 ^ 32 - 1)) % 2 ^ 32 / fs.blocksPerGroup }
  if fs.groupCount = 0 then (false, fs)
  else
    let fs := { fs with
      gdtOff := (fs.firstDataBlock + 1) * fs.blockSize % 2 ^ 32
      allocHint := fs.firstDataBlock }
    (fs.gdtOff + fs.groupCount * fs.descSize ≤ fs.blocksCount * fs.blockSize, fs)

/-- The features of `parse_sb`, with the size of a group descriptor. -/
def parseFeatures (sb : ℕ → UInt8) (fs : Ext2Fs) : Bool × Ext2Fs :=
  let incompat := rd32 sb 96
  if incompat &&& (2 ^ 32 - 1 - 0x2C2) ≠ 0 then (false, fs)
  else
    let fs := { fs with
      hasFiletype := incompat.testBit 1
      hasExtents := incompat.testBit 6
      has64bit := incompat.testBit 7
      descSize := 32 }
    let ds := rd16 sb 254
    if fs.has64bit ∧ ds ≠ 64 ∧ ds ≠ 32 ∧ ds ≠ 0 then (false, fs)
    else parseGroups (if fs.has64bit ∧ ds ≠ 0 then { fs with descSize := ds } else fs)

/-- The inode size and the first free inode of `parse_sb`, fixed in revision 0. -/
def parseInodes (sb : ℕ → UInt8) (fs : Ext2Fs) : Bool × Ext2Fs :=
  let fs := if rd32 sb 76 = 0 then { fs with inodeSize := 128, firstIno := 11 }
    else { fs with inodeSize := rd16 sb 88, firstIno := rd32 sb 84 }
  if fs.inodeSize < 128 ∨ fs.blockSize < fs.inodeSize ∨ fs.firstIno < 2 ∨
      fs.blockSize % fs.inodeSize ≠ 0 then
    (false, fs)
  else parseFeatures sb fs

/-- `parse_sb`: whether the superblock is accepted, and what is filled in either way. -/
def parseSb (sb : ℕ → UInt8) : Bool × Ext2Fs :=
  if rd16 sb 56 ≠ 0xEF53 then (false, {})
  else if 2 < rd32 sb 24 then (false, {})
  else
    let fs : Ext2Fs :=
      { blockSize := 1024 * 2 ^ rd32 sb 24
        inodesCount := rd32 sb 0
        blocksCount := rd32 sb 4
        firstDataBlock := rd32 sb 20
        blocksPerGroup := rd32 sb 32
        inodesPerGroup := rd32 sb 40 }
    if fs.blocksPerGroup = 0 ∨ fs.inodesPerGroup = 0 ∨ fs.inodesCount = 0 ∨ fs.blocksCount = 0 then
      (false, fs)
    else parseInodes sb fs

/-- `blkio_rd` through `pagecache_read`, which has no pages for a context that is NULL. -/
def blkioRd (ctx : Option ℕ) (d : Dev) (fs : Ext2Fs) (blk : ℕ) : Option (ℕ → UInt8) :=
  ctx.bind fun _ => d.read (blk * fs.blockSize) fs.blockSize

/-- `root_ok`: the inode table of the first group is found through the group's descriptor, and the
root is its second inode. -/
def rootOk (ctx : Option ℕ) (d : Dev) (fs : Ext2Fs) : Bool :=
  let g := 1 / fs.inodesPerGroup
  let gdOff := fs.gdtOff + g * fs.descSize
  if fs.inodesCount < 2 ∨ fs.groupCount ≤ g then false
  else match blkioRd ctx d fs (gdOff / fs.blockSize) with
  | none => false
  | some gd =>
    let lo := rd32 gd (gdOff % fs.blockSize + 8)
    let table := if fs.has64bit ∧ 64 ≤ fs.descSize then
      lo + rd32 gd (gdOff % fs.blockSize + 28) * 2 ^ 32 else lo
    let off := table * fs.blockSize + 1 % fs.inodesPerGroup * fs.inodeSize
    match blkioRd ctx d fs (off / fs.blockSize % 2 ^ 32) with
    | none => false
    | some inode => rd16 inode (off % fs.blockSize) &&& 0xF000 = 0x4000

/-- `ext2_mount_bdev`: the superblock is at byte 1024. -/
def ext2MountBdev (ctx : Option ℕ) (d : Dev) : Bool × Ext2Fs :=
  match d.read 0 4096 with
  | none => (false, {})
  | some area =>
    let r := parseSb fun i => area (1024 + i)
    (r.1 && rootOk ctx d r.2, r.2)

/-- The scan for the primary volume descriptor: the extent and the size of the root directory. -/
def isoScan (d : Dev) (sectors : ℕ) : ℕ → ℕ → Option (ℕ × ℕ) → Option (ℕ × ℕ)
  | 0, _, found => found
  | turns + 1, lba, found =>
    if lba < sectors then
      match d.sector lba with
      | none => found
      | some vd =>
        if (vd 1, vd 2, vd 3, vd 4, vd 5) ≠ (67, 68, 48, 48, 49) ∨ vd 0 = 255 then found
        else isoScan d sectors turns (lba + 1)
          (if vd 0 = 1 then some (rd32 vd 158, rd32 vd 166) else found)
    else found

/-- `iso_read_dir` succeeds; `mem` is whether `kmalloc` does. -/
def isoReadDir (d : Dev) (mem : Bool) (extent size : ℕ) : Bool :=
  let n := (size + 2047) / 2048
  n * 2048 ≤ 4 * 1024 * 1024 && mem && (List.range n).all fun s => (d.sector (extent + s)).isSome

/-- `iso9660_mount_bdev` accepts the device. -/
def isoAccepts (d : Dev) (mem : Bool) : Bool :=
  match isoScan d (d.size / 2048) 32 16 none with
  | none => false
  | some (extent, size) => size ≠ 0 && isoReadDir d mem extent size

def maxMounts : ℕ := 8

/-- `g_mounts`, the device registry, and the globals of the two drivers. -/
structure Mounts where
  table : List Mount
  devs : List (Path × Dev)
  bfsOk : Bool
  bfs : Ext2Fs
  bfsDev : Option Dev
  isoOk : Bool
  isoMnt : Path
  isoDev : Option Dev

inductive MountErr where
  | nfile | exist | nodev | inval
  deriving DecidableEq

namespace Mounts

/-- `dev_lookup`, for block devices only. -/
def blockDev (s : Mounts) (name : Path) : Option Dev :=
  ((s.devs.find? fun e => e.1 = name).map Prod.snd).filter (·.isBlock)

def add (s : Mounts) (path : Path) (kind : MountKind) : Mounts :=
  { s with table := s.table ++ [⟨path.take (pathMax - 1), kind⟩] }

/-- The ISO attempt sets the device before it looks at it, and clears it when it gives up. -/
def tryIso (s : Mounts) (path : Path) (d : Dev) (mem : Bool) : Except MountErr Unit × Mounts :=
  if isoAccepts d mem then
    let s := { s with
      isoDev := some d
      isoOk := true
      isoMnt := path.take 255 }
    (.ok (), s.add path .iso)
  else (.error .inval, { s with isoDev := none })

/-- `vfs_mount_bdev`; `fat` is whether the FAT driver accepts the device.  The context that the ext2
driver is handed is NULL. -/
def mountBdev (s : Mounts) (path name : Path) (fat mem : Bool) : Except MountErr Unit × Mounts :=
  if maxMounts ≤ s.table.length then (.error .nfile, s)
  else if path ∈ s.table.map Mount.mnt then (.error .exist, s)
  else
    match s.blockDev name with
    | none => (.error .nodev, s)
    | some d =>
      let r := ext2MountBdev none d
      let s := { s with bfs := r.2, bfsDev := some d }
      if r.1 then
        let s := { s with table := s.table.filter fun m => m.kind ≠ MountKind.ext2, bfsOk := true }
        (.ok (), s.add path .ext2)
      else if fat then (.ok (), s.add path .fat)
      else s.tryIso path d mem

/-- `vfs_mount_tmpfs`, `vfs_mount_devtmpfs` and `vfs_mount_cgroupfs`; `mem` is whether a new tmpfs
could be had. -/
def mountPlain (s : Mounts) (path : Path) (kind : MountKind) (mem : Bool) : Mounts :=
  if s.table.length < maxMounts ∧ path ∉ s.table.map Mount.mnt ∧ mem then s.add path kind else s

def remove (s : Mounts) (p : Mount → Bool) : Mounts := { s with table := s.table.eraseP p }

/-- `vfs_umount`; `fat` is whether the FAT driver has a volume there. -/
def umount (s : Mounts) (path : Path) (fat : Bool) : Mounts :=
  if s.isoOk ∧ s.isoMnt = path then
    let s := { s with isoOk := false, isoMnt := [], isoDev := none }
    s.remove fun m => m.kind = .iso ∧ m.mnt = path
  else if fat then s.remove fun m => m.kind = .fat ∧ m.mnt = path
  else s.remove fun m => m.mnt = path

/-- The calls that change the mounts.  Registering and unregistering devices moves the nodes of the
registry, and `g_iso_dev` points to one of them. -/
inductive MountOp where
  | bdev (path name : Path) (fat mem : Bool)
  | tmpfs (path : Path) (i : ℕ) (mem : Bool)
  | dev (path : Path)
  | cgroup (path : Path)
  | umount (path : Path) (fat : Bool)
  | devices (devs : List (Path × Dev)) (node : Dev)

def exec (s : Mounts) : MountOp → Mounts
  | .bdev path name fat mem => (s.mountBdev path name fat mem).2
  | .tmpfs path i mem => s.mountPlain path (.tmpfs i) mem
  | .dev path => s.mountPlain path .dev true
  | .cgroup path => s.mountPlain path .cgroup true
  | .umount path fat => s.umount path fat
  | .devices devs node => { s with devs := devs, isoDev := s.isoDev.map fun _ => node }

def boot : Mounts := ⟨[], [], false, {}, none, false, [], none⟩

/-- The mounts after a sequence of calls. -/
def after (ops : List MountOp) : Mounts := ops.foldl exec boot

/-- What lookups, reads and writes of the mounted disk are computed from, and of the image. -/
def bfsView (s : Mounts) : Option (Ext2Fs × Option Dev) :=
  if s.bfsOk then some (s.bfs, s.bfsDev) else none

def isoView (s : Mounts) : Option (Path × Option Dev) :=
  if s.isoOk then some (s.isoMnt, s.isoDev) else none

/-- Every mount is what it was. -/
structure Unharmed (s s' : Mounts) : Prop where
  table : s'.table = s.table
  bfs : s'.bfsView = s.bfsView
  iso : s'.isoView = s.isoView

def Refused (s : Mounts) (path name : Path) : Prop :=
  maxMounts ≤ s.table.length ∨ path ∈ s.table.map Mount.mnt ∨ s.blockDev name = none

/-- The root directory is never found, whatever is on the device. -/
theorem ext2MountBdev_fails (d : Dev) : (ext2MountBdev none d).1 = false := by
  have hRoot : ∀ fs, rootOk none d fs = false := by simp [rootOk, blkioRd]
  unfold ext2MountBdev
  split
  · rfl
  · simp only [hRoot, Bool.and_false]

theorem bfsOk_mountBdev (s : Mounts) (path name : Path) (fat mem : Bool) :
    (s.mountBdev path name fat mem).2.bfsOk = s.bfsOk := by
  unfold mountBdev
  split
  · rfl
  split
  · rfl
  split
  · rfl
  rw [if_neg (by simp [ext2MountBdev_fails])]
  split
  · rfl
  · unfold tryIso
    split <;> rfl

theorem bfsOk_mountPlain (s : Mounts) (path : Path) (kind : MountKind) (mem : Bool) :
    (s.mountPlain path kind mem).bfsOk = s.bfsOk := by
  unfold mountPlain
  split <;> rfl

theorem bfsOk_exec (s : Mounts) (op : MountOp) : (s.exec op).bfsOk = s.bfsOk := by
  cases op with
  | bdev path name fat mem => exact bfsOk_mountBdev s path name fat mem
  | umount path fat =>
    show (s.umount path fat).bfsOk = s.bfsOk
    unfold umount
    split_ifs <;> rfl
  | devices devs node => rfl
  | _ => exact bfsOk_mountPlain s _ _ _

/-- No ext2 volume of a block device is ever mounted. -/
theorem bfsOk_after (ops : List MountOp) : (after ops).bfsOk = false := by
  have hRun : ∀ s : Mounts, (ops.foldl exec s).bfsOk = s.bfsOk := by
    induction ops with
    | nil => exact fun _ => rfl
    | cons op ops ih => exact fun s => (ih _).trans (bfsOk_exec s op)
  exact hRun boot

/-- After any calls, a mount of a block device that fails leaves every mount as it was exactly if it
fails before a driver is tried, or no image is mounted, or the image has no device any more. -/
theorem failed_mount_unharmed_iff (ops : List MountOp) (path name : Path) (fat mem : Bool)
    {e : MountErr} (hFailed : ((after ops).mountBdev path name fat mem).1 = .error e) :
    (after ops).Unharmed ((after ops).mountBdev path name fat mem).2 ↔
      (after ops).Refused path name ∨ (after ops).isoOk = false ∨ (after ops).isoDev = none := by
  have hBfs := bfsOk_after ops
  generalize after ops = s at hFailed hBfs ⊢
  unfold mountBdev at hFailed ⊢
  split at hFailed
  · next hFull =>
    rw [if_pos hFull]
    exact iff_of_true ⟨rfl, rfl, rfl⟩ (.inl (.inl hFull))
  next hFull =>
  rw [if_neg hFull]
  split at hFailed
  · next hThere =>
    rw [if_pos hThere]
    exact iff_of_true ⟨rfl, rfl, rfl⟩ (.inl (.inr (.inl hThere)))
  next hThere =>
  rw [if_neg hThere]
  cases hDev : s.blockDev name with
  | none => exact iff_of_true ⟨rfl, rfl, rfl⟩ (.inl (.inr (.inr hDev)))
  | some d =>
    rw [hDev] at hFailed
    simp only [ext2MountBdev_fails, Bool.false_eq_true, if_false] at hFailed ⊢
    have hGo : ¬s.Refused path name := by simp [Refused, hFull, hThere, hDev]
    -- All three drivers have given up.
    cases fat with
    | true => simp at hFailed
    | false =>
    unfold tryIso at hFailed ⊢
    cases hIso : isoAccepts d mem with
    | true => simp [hIso] at hFailed
    | false =>
    simp only [Bool.false_eq_true, if_false, hGo, false_or]
    constructor
    · rintro ⟨-, -, hView⟩
      cases hOk : s.isoOk with
      | false => exact .inl rfl
      | true =>
        simp only [isoView, hOk, if_true, Option.some.injEq, Prod.mk.injEq, true_and] at hView
        exact .inr hView.symm
    · intro hNone
      refine ⟨rfl, by simp [bfsView, hBfs], ?_⟩
      obtain hOff | hGone := hNone
      · simp [isoView, hOff]
      · simp [isoView, hGone]

/-- A device all of whose bytes are zero, and one with an empty ISO image. -/
def blank : Dev := ⟨true, 1048576, fun _ _ => some fun _ => 0⟩

def image : Dev where
  isBlock := true
  size := 1048576
  read off _ := some fun k =>
    if off = 16 * 2048 then
      if k < 6 then [1, 67, 68, 48, 48, 49].getD k 0
      else if k = 158 then 20 else if k = 167 then 8 else 0
    else 0

/-- The image is mounted on `/m`. -/
def imageMounted : List MountOp :=
  [.devices [([98], blank), ([99], image)] blank, .bdev [47, 109] [99] false true]

def imageGone : List MountOp := imageMounted ++ [.umount [47, 109] false]

/-- An attempt at a path that is a mount point already, and one after the image is gone. -/
theorem failed_mount_unharmed :
    (after imageMounted).Unharmed ((after imageMounted).mountBdev [47, 109] [98] false true).2 ∧
      (after imageGone).Unharmed ((after imageGone).mountBdev [47, 110] [98] false true).2 := by
  constructor
  · refine (failed_mount_unharmed_iff _ _ _ _ _ (e := .exist) (by decide +kernel)).mpr ?_
    exact .inl (.inr (.inl (by decide +kernel)))
  · refine (failed_mount_unharmed_iff _ _ _ _ _ (e := .inval) (by decide +kernel)).mpr ?_
    exact .inr (.inl (by decide +kernel))

/-- The attempt to mount the blank disk takes the device away from the mounted image. -/
theorem blank_disk_clears_image :
    ((after imageMounted).mountBdev [47, 110] [98] false true).1 = .error .inval ∧
      ¬(after imageMounted).Unharmed
        ((after imageMounted).mountBdev [47, 110] [98] false true).2 := by
  have hGone : ((after imageMounted).mountBdev [47, 110] [98] false true).2.isoView.map
      (·.2.isSome) = some false := by decide +kernel
  have hThere : (after imageMounted).isoView.map (·.2.isSome) = some true := by decide +kernel
  refine ⟨by decide +kernel, fun h => ?_⟩
  rw [h.iso, hThere] at hGone
  cases hGone

end Mounts

end Gnos.Vfs
