import Gnos.Ext2.Model

/-! The calls of `fs/vfs.c` that change a filesystem: the mount table, the routing of paths,
`resolve`, and the ten calls that create, remove, rename and change files.  The filesystem drivers
are a parameter; the two ext2 volumes, the root image `g_fs` and the mounted disk `g_bfs`, share
one.  The generated trees, the FAT and ISO volumes and the device registry are given by their
answers to lookups: the calls change nothing of theirs. -/

namespace Gnos.Vfs

open Ext2 (Path slash dot)
open Ext2.Volume (Dirent)

inductive Errno where
  | perm | noent | acces | busy | exist | xdev | notdir | isdir | inval | nospc | notempty | mfile
  | nomem | opnotsupp
  deriving DecidableEq, Repr

/-- 0 or a descriptor, or a negative error number. -/
abbrev Result := Except Errno ℕ

inductive Kind where
  | file | dir | chardev | pipe | socket | symlink | blockdev | anon
  deriving DecidableEq, Repr

/-- `vfs_node_t`; `e2.ino` is 0 on a node that carries no inode number. -/
structure Node where
  kind : Kind
  size : ℕ
  mode : ℕ
  uid : ℕ
  gid : ℕ
  e2 : Dirent
  tmpfsFile : Bool

abbrev Answer := Except Errno Node

inductive MountKind where
  | tmpfs (i : ℕ) | cgroup | ext2 | fat | iso | dev
  deriving DecidableEq, Repr

structure Mount where
  mnt : Path
  kind : MountKind

structure Caller where
  euid : ℕ
  egid : ℕ
  groups : List ℕ

structure OpenFile where
  refs : ℕ
  node : Node
  pos : ℕ
  flags : ℕ
  path : Path

inductive Ext2Call where
  | create (path : Path) (isdir : Bool)
  | unlink (path : Path)
  | symlink (target path : Path)
  | link (oldpath newpath : Path)
  | rename (src dst : Path)
  | truncate (ino : ℕ)
  | setsize (ino len : ℕ)
  | chmod (ino mode : ℕ)
  | chown (ino uid gid : ℕ)

inductive TmpfsCall where
  | createFile (rel : Path) (mode : ℕ)
  | mkdir (rel : Path) (mode : ℕ)
  | rmdir (rel : Path)
  | unlink (rel : Path)
  | symlink (target rel : Path)
  | rename (srel drel : Path)
  | truncate (rel : Path)
  | setsize (rel : Path) (len : ℕ)
  | chmod (rel : Path) (mode : ℕ)
  | retain (rel : Path)

inductive CgroupCall where
  | mkdir (rel : Path)
  | rmdir (rel : Path)

/-- The functions of the drivers.  A walk over an ext2 volume need not come back.  `disk` is what is
on a volume, without the owner to stamp on new inodes.  The control files of a cgroup have no
size. -/
structure Drivers (V T C K : Type) where
  lookup : V → Path → Bool → Option (Option Dirent)
  ext2 : V → Ext2Call → Option (V × Ext2.Code)
  setCreator : V → ℕ → ℕ → V
  disk : V → K
  disk_setCreator : ∀ v uid gid, disk (setCreator v uid gid) = disk v
  tmpfsResolve : T → Path → Answer
  tmpfs : T → TmpfsCall → T × Result
  cgroupResolve : C → Path → Answer
  cgroup_size : ∀ c rel n, cgroupResolve c rel = .ok n → n.size = 0
  cgroup : C → CgroupCall → C × Result

/-- What is mounted where: the mount table, `g_fs_ok`, `g_bfs_ok` and the mount points of the FAT
and the ISO driver. -/
structure Layout where
  mounts : List Mount
  rootOk : Bool
  bfsOk : Bool
  fatMnt : Option Path
  isoMnt : Option Path

structure State (V T C : Type) extends Layout where
  root : V
  bfs : V
  tmpfs : ℕ → T
  cgroup : C
  devs : List (Path × Node)
  /-- `register_dev` makes character and block devices only. -/
  devs_kind : ∀ d ∈ devs, d.2.kind ≠ .file
  proc : Path → Answer
  debug : Path → Answer
  sys : Path → Bool → Answer
  fat : Path → Answer
  iso : Path → Answer
  caller : Option Caller
  files : ℕ → OpenFile

def pathMax : ℕ := 256
def maxFiles : ℕ := 1024
def oCreat : ℕ := 0o100
def oTrunc : ℕ := 0o1000
def oAppend : ℕ := 0o2000

def ascii (cs : List Char) : Path := cs.map fun c => UInt8.ofNat c.toNat

def devDir : Path := ascii ['/', 'd', 'e', 'v', '/']
def shmDir : Path := ascii ['/', 'd', 'e', 'v', '/', 's', 'h', 'm', '/']
def shmRest : Path := ascii ['/', 's', 'h', 'm']
def procDir : Path := ascii ['/', 'p', 'r', 'o', 'c']
def debugDir : Path := ascii ['/', 'd', 'e', 'b', 'u', 'g']
def sysDir : Path := ascii ['/', 's', 'y', 's']

/-- `abs` is `dir` or something below it. -/
def under (dir abs : Path) : Bool :=
  dir.isPrefixOf abs && ((abs.drop dir.length).head?.all (· == slash))

def relTo (mnt abs : Path) : Path :=
  if abs.drop mnt.length = [] then [slash] else abs.drop mnt.length

/-- The longest mount point of a kind above `abs`, the first of several. -/
def routeLongest {α : Type} (sel : MountKind → Option α) (abs : Path) :
    List Mount → Option (Mount × α) → Option (Mount × α)
  | [], best => best
  | m :: ms, best =>
    match sel m.kind with
    | none => routeLongest sel abs ms best
    | some a =>
      if under m.mnt abs && best.all fun b => b.1.mnt.length < m.mnt.length then
        routeLongest sel abs ms (some (m, a))
      else routeLongest sel abs ms best

/-- `vfs_route_dev`: the first device mount above the path, which leaves `/shm` to POSIX shared
memory. -/
def routeDevIn (abs : Path) : List Mount → Option Path
  | [] => none
  | m :: ms =>
    if m.kind = .dev ∧ m.mnt.isPrefixOf abs then
      let rest := relTo m.mnt abs
      if rest.head? ≠ some slash then routeDevIn abs ms
      else if under shmRest rest then none
      else some rest
    else routeDevIn abs ms

inductive Fs where
  | dev | proc | debug | cgroup | sys | tmpfs (i : ℕ) | fat | iso | bfs | root
  deriving DecidableEq, Repr

namespace Layout

variable (l : Layout) (abs : Path)

def routeDev : Option Path := routeDevIn abs l.mounts

def routeTmpfs : Option (ℕ × Path) :=
  (routeLongest (fun k => match k with | .tmpfs i => some i | _ => none) abs l.mounts none).map
    fun b => (b.2, (relTo b.1.mnt abs).take (pathMax - 1))

def routeCgroup : Option Path :=
  (routeLongest (fun k => if k = .cgroup then some () else none) abs l.mounts none).map
    fun b => (relTo b.1.mnt abs).take (pathMax - 1)

def routeBfs : Option Path :=
  if l.bfsOk then
    (routeLongest (fun k => if k = .ext2 then some () else none) abs l.mounts none).map
      fun b => (relTo b.1.mnt abs).take (pathMax - 1)
  else none

/-- `fatfs_route` and `iso9660_route`: one mount point each. -/
def routeOne (mnt : Option Path) (abs : Path) : Option Path :=
  mnt.bind fun m => if under m abs then some (relTo m abs) else none

/-- The order in which `resolve` asks the filesystems for a path; `takes` says which of the three
generated trees answer for it. -/
def routeBy (takes : Fs → Bool) (path : Path) : Option (Fs × Path) :=
  if path.head? ≠ some slash then none
  else match l.routeDev path with
  | some rel => some (.dev, rel)
  | none =>
  if devDir.isPrefixOf path then some (.dev, path.drop 5)
  else if takes .proc then some (.proc, path)
  else if takes .debug then some (.debug, path)
  else match l.routeCgroup path with
  | some rel => some (.cgroup, rel)
  | none =>
  if takes .sys then some (.sys, path)
  else match l.routeTmpfs path with
  | some (i, rel) => some (.tmpfs i, rel)
  | none =>
  match routeOne l.fatMnt path with
  | some rel => some (.fat, rel)
  | none =>
  match routeOne l.isoMnt path with
  | some rel => some (.iso, rel)
  | none =>
  match l.routeBfs path with
  | some rel => some (.bfs, rel)
  | none => some (.root, path)

end Layout

namespace State

variable {V T C K : Type} (D : Drivers V T C K) (s : State V T C) (abs path : Path)

def procResolve : Answer := if under procDir path then s.proc path else .error .inval

def debugResolve : Answer := if under debugDir path then s.debug path else .error .inval

variable (follow : Bool)

def sysResolve : Answer := if under sysDir path then s.sys path follow else .error .inval

/-- A generated tree that answers `EINVAL` passes the path on. -/
def claims (a : Answer) : Bool := match a with | .error .inval => false | _ => true

def takes : Fs → Bool
  | .proc => claims (s.procResolve path)
  | .debug => claims (s.debugResolve path)
  | .sys => claims (s.sysResolve path follow)
  | _ => false

/-- The filesystem that `resolve` takes a path to, with the path it looks up there. -/
def route : Option (Fs × Path) := s.routeBy (s.takes path follow) path

def devDirNode : Node := ⟨.dir, 0, 0, 0, 0, ⟨0, 0, 0, 0, 0⟩, false⟩

def devLookup (name : Path) : Answer :=
  match s.devs.find? fun d => d.1 = name with
  | some d => .ok d.2
  | none => .error .noent

def ext2Node (e : Dirent) : Node :=
  let m := e.mode &&& Ext2.sIfmt
  ⟨if m = Ext2.sIfdir then .dir else if m = Ext2.sIflnk then .symlink else .file,
    e.size, e.mode, e.uid, e.gid, e, false⟩

def ext2Resolve (v : V) (path : Path) (follow : Bool) : Option Answer :=
  (D.lookup v path follow).map fun e =>
    match e with
    | some e => .ok (ext2Node e)
    | none => .error .noent

def resolve : Option Answer :=
  match s.route path follow with
  | none => some (.error .inval)
  | some (.dev, name) =>
    -- a mounted device directory has a node of its own, the fixed `/dev` has none
    some (match s.routeDev path with
      | some rel => if rel = [slash] then .ok devDirNode else s.devLookup (rel.drop 1)
      | none => s.devLookup name)
  | some (.proc, p) => some (s.procResolve p)
  | some (.debug, p) => some (s.debugResolve p)
  | some (.cgroup, rel) => some (D.cgroupResolve s.cgroup rel)
  | some (.sys, p) => some (s.sysResolve p follow)
  | some (.tmpfs i, rel) => some (D.tmpfsResolve (s.tmpfs i) rel)
  | some (.fat, rel) => some (s.fat rel)
  | some (.iso, rel) => some (s.iso rel)
  | some (.bfs, rel) => ext2Resolve D s.bfs rel follow
  | some (.root, p) => if s.rootOk then ext2Resolve D s.root p follow else some (.error .noent)

structure Owner where
  uid : ℕ
  gid : ℕ
  mode : ℕ
  isDir : Bool

variable (n : Node)

/-- The owner and mode that a node of `resolve` stands for. -/
def nodeOwner : Owner :=
  let m := n.e2.mode &&& 0x0FFF
  ⟨n.e2.uid, n.e2.gid, if n.e2.ino = 0 then
      if n.kind = .blockdev then 0o660 else if n.kind = .chardev then 0o666 else 0o777
    else if m = 0 then if n.kind = .dir then 0o755 else 0o644 else m, n.kind = .dir⟩

def vfsOwner : Option (Except Errno Owner) :=
  match s.routeTmpfs path with
  | some (i, rel) =>
    some (match D.tmpfsResolve (s.tmpfs i) rel with
      | .ok n => .ok ⟨0, 0, 0o777, n.kind = .dir⟩
      | .error _ => .error .noent)
  | none => (s.resolve D path follow).map fun a => a.map nodeOwner

/-- `proc_permitted` for a wanted set of permission bits. -/
def permitted (o : Owner) (want : ℕ) : Bool :=
  match s.caller with
  | none => true
  | some c =>
    if want = 0 then true
    else if c.euid = 0 then !(want &&& 1 != 0 && !o.isDir && o.mode &&& 0o111 == 0)
    else
      let shift := if c.euid = o.uid then 6 else if c.egid = o.gid ∨ o.gid ∈ c.groups then 3 else 0
      o.mode >>> shift &&& want == want

def parentPath : Path :=
  let head := abs.take (pathMax - 1)
  let last := ((List.range head.length).filter fun i => head[i]? == some slash).getLastD 0
  if last = 0 then [slash] else abs.take last

/-- `may_mutate_dir`: the parent has to be writable, and a sticky one protects the files of
others. -/
def mayMutateDir (victim : Option Path) : Option (Except Errno Unit) :=
  match s.caller with
  | none => some (.ok ())
  | some c =>
    (s.vfsOwner D (parentPath path) true).bind fun a =>
      match a with
      | .error _ => some (.ok ())
      | .ok d =>
        if !s.permitted d 3 then some (.error .acces)
        else match victim with
          | none => some (.ok ())
          | some file =>
            if d.mode &&& 0o1000 ≠ 0 ∧ c.euid ≠ 0 ∧ c.euid ≠ d.uid then
              (s.vfsOwner D file false).map fun b =>
                match b with
                | .ok f => if c.euid ≠ f.uid then .error .perm else .ok ()
                | .error _ => .ok ()
            else some (.ok ())

/-- A call of a driver function on one filesystem. -/
inductive Errand where
  | root (c : Ext2Call)
  | tmpfs (i : ℕ) (c : TmpfsCall)
  | cgroup (c : CgroupCall)

/-- What a call comes to: a result of its own, or the result of a driver function. -/
inductive Step where
  | ret (r : Result)
  | run (e : Errand)

def gated (g : Option (Except Errno Unit)) (next : Option Step) : Option Step :=
  g.bind fun r =>
    match r with
    | .error e => some (.ret (.error e))
    | .ok () => next

/-- A name of a device node that no call changes; the files of `/dev/shm` are not among them. -/
def devName : Bool := devDir.isPrefixOf path

def devNotShm : Bool := devDir.isPrefixOf path && !shmDir.isPrefixOf path

def vfsUnlink : Option Step :=
  if devNotShm path then some (.ret (.error .perm))
  else gated (s.mayMutateDir D path (some path)) <|
    if (s.routeCgroup path).isSome then some (.ret (.error .perm))
    else match s.routeTmpfs path with
      | some (i, rel) => some (.run (.tmpfs i (.unlink rel)))
      | none =>
        if !s.rootOk then some (.ret (.error .noent)) else some (.run (.root (.unlink path)))

def vfsRmdir : Option Step :=
  if devName path then some (.ret (.error .perm))
  else gated (s.mayMutateDir D path (some path)) <|
    match s.routeCgroup path with
    | some crel => some (.run (.cgroup (.rmdir crel)))
    | none =>
      match s.routeTmpfs path with
      | some (i, rel) => some (.run (.tmpfs i (.rmdir rel)))
      | none =>
        (s.resolve D path false).map fun a =>
          match a with
          | .error e => .ret (.error e)
          | .ok n => if n.kind ≠ .dir then .ret (.error .notdir) else .run (.root (.unlink path))

def vfsMkdir : Option Step :=
  if devName path then some (.ret (.error .perm))
  else gated (s.mayMutateDir D path none) <|
    match s.routeCgroup path with
    | some crel => some (.run (.cgroup (.mkdir crel)))
    | none =>
      match s.routeTmpfs path with
      | some (i, rel) => some (.run (.tmpfs i (.mkdir rel 0o755)))
      | none =>
        if !s.rootOk then some (.ret (.error .noent)) else some (.run (.root (.create path true)))

def vfsSymlink (target path : Path) : Option Step :=
  if devName path then some (.ret (.error .perm))
  else gated (s.mayMutateDir D path none) <|
    if (s.routeCgroup path).isSome then some (.ret (.error .perm))
    else match s.routeTmpfs path with
      | some (i, rel) => some (.run (.tmpfs i (.symlink target rel)))
      | none => some (.run (.root (.symlink target path)))

def vfsLink (oldpath newpath : Path) : Option Step :=
  if devName oldpath || devName newpath then some (.ret (.error .perm))
  else gated (s.mayMutateDir D newpath none) <|
    if (s.routeCgroup oldpath).isSome || (s.routeCgroup newpath).isSome then
      some (.ret (.error .perm))
    else if (s.routeTmpfs newpath).isSome then some (.ret (.error .opnotsupp))
    else some (.run (.root (.link oldpath newpath)))

def vfsRename (src dst : Path) : Option Step :=
  if devName src || devName dst then some (.ret (.error .perm))
  else if (s.routeCgroup src).isSome || (s.routeCgroup dst).isSome then some (.ret (.error .perm))
  else gated (s.mayMutateDir D src (some src)) <| gated (s.mayMutateDir D dst none) <|
    match s.routeTmpfs src, s.routeTmpfs dst with
    | none, none => some (.run (.root (.rename src dst)))
    | some (i, srel), some (j, drel) =>
      if i ≠ j then some (.ret (.error .xdev)) else some (.run (.tmpfs i (.rename srel drel)))
    | _, _ => some (.ret (.error .xdev))

def vfsTruncate (len : ℕ) : Option Step :=
  if devNotShm path then some (.ret (.error .inval))
  else if (s.routeCgroup path).isSome then some (.ret (.error .perm))
  else match s.routeTmpfs path with
    | some (i, rel) => some (.run (.tmpfs i (.setsize rel len)))
    | none =>
      if !s.rootOk then some (.ret (.error .noent))
      else (s.resolve D path true).map fun a =>
        match a with
        | .error e => .ret (.error e)
        | .ok n =>
          if n.kind = .dir then .ret (.error .isdir)
          else if n.kind ≠ .file then .ret (.error .inval)
          else .run (.root (.setsize n.e2.ino len))

/-- The end of `vfs_chmod` and `vfs_chown`: a node without an inode number has nothing to write
to. -/
def onInode (a : Option Answer) (c : ℕ → Ext2Call) : Option Step :=
  a.map fun a =>
    match a with
    | .error e => .ret (.error e)
    | .ok n => if n.e2.ino = 0 then .ret (.ok 0) else .run (.root (c n.e2.ino))

def vfsChmod (mode : ℕ) : Option Step :=
  if (s.routeCgroup path).isSome then some (.ret (.error .perm))
  else match s.routeTmpfs path with
    | some (i, rel) => some (.run (.tmpfs i (.chmod rel mode)))
    | none => onInode (s.resolve D path true) fun ino => .chmod ino mode

def vfsChown (uid gid : ℕ) (follow : Bool) : Option Step :=
  if (s.routeCgroup path).isSome then some (.ret (.error .perm))
  else if (s.routeTmpfs path).isSome then some (.ret (.ok 0))
  else onInode (s.resolve D path follow) fun ino => .chown ino uid gid

def fsErrno : Ext2.Code → Result
  | .ok => .ok 0
  | .enoent => .error .noent
  | .eexist => .error .exist
  | .enospc => .error .nospc
  | .enotdir => .error .notdir
  | .enotempty => .error .notempty
  | .eisdir => .error .isdir
  | .einval => .error .inval

/-- `creator_from_caller` comes before the calls that make an inode. -/
def stamped (c : Ext2Call) : V :=
  match c with
  | .create _ _ | .symlink _ _ =>
    D.setCreator s.root ((s.caller.map (·.euid)).getD 0) ((s.caller.map (·.egid)).getD 0)
  | _ => s.root

def setRoot (v : V) : State V T C := { s with root := v }

def setTmpfs (i : ℕ) (t : T) : State V T C := { s with tmpfs := Function.update s.tmpfs i t }

def setCgroup (c : C) : State V T C := { s with cgroup := c }

def perform : Errand → Option (State V T C × Result)
  | .root c => (D.ext2 (s.stamped D c) c).map fun r => (s.setRoot r.1, fsErrno r.2)
  | .tmpfs i c => let r := D.tmpfs (s.tmpfs i) c; some (s.setTmpfs i r.1, r.2)
  | .cgroup c => let r := D.cgroup s.cgroup c; some (s.setCgroup r.1, r.2)

def take (st : Step) : Option (State V T C × Result) :=
  match st with
  | .ret r => some (s, r)
  | .run e => s.perform D e

/-- The driver function that makes the missing file of an open with `O_CREAT`. -/
def createErrand : Option Errand :=
  match s.routeTmpfs path with
  | some (i, rel) => some (.tmpfs i (.createFile rel 0o644))
  | none => if s.rootOk then some (.root (.create path false)) else none

variable (flags : ℕ)

def openWant : ℕ :=
  (if flags &&& 3 = 1 then 2 else if flags &&& 3 = 2 then 6 else 4) |||
    if flags &&& oTrunc ≠ 0 then 2 else 0

def mayOpen : Bool :=
  match s.caller with
  | none => true
  | some c =>
    if n.mode = 0 ∨ c.euid = 0 then true
    else
      let shift := if c.euid = n.uid then 6 else if c.egid = n.gid then 3 else 0
      n.mode >>> shift &&& 7 &&& openWant flags == openWant flags

/-- The driver function that empties a file opened with `O_TRUNC`. -/
def truncErrand : Errand :=
  match s.routeTmpfs path with
  | some (i, rel) => .tmpfs i (.truncate rel)
  | none => .root (.truncate n.e2.ino)

def slotAlloc : Option ℕ := (List.range maxFiles).find? fun h => (s.files h).refs = 0

def retain (path : Path) (n : Node) : State V T C :=
  match n.tmpfsFile, s.route path true with
  | true, some (.tmpfs i, rel) => s.setTmpfs i (D.tmpfs (s.tmpfs i) (.retain rel)).1
  | _, _ => s

def install : State V T C × Result :=
  match s.slotAlloc with
  | none => (s, .error .mfile)
  | some h =>
    ({ s with
      files := Function.update s.files h
        ⟨1, n, if flags &&& oAppend ≠ 0 then n.size else 0, flags, path.take (pathMax - 1)⟩ },
        .ok h)

/-- `vfs_file_open` from the node on. -/
def openNode : Option (State V T C × Result) :=
  if !s.mayOpen n flags then some (s, .error .acces)
  else if flags &&& oTrunc ≠ 0 ∧ n.kind = .file ∧ n.size ≠ 0 then
    -- the result of the truncation is not looked at
    (s.perform D (s.truncErrand path n)).map fun p =>
      (p.1.retain D path n).install path { n with size := 0 } flags
  else some ((s.retain D path n).install path n flags)

def openAnswer (a : Answer) : Option (State V T C × Result) :=
  match a with
  | .error e => some (s, .error e)
  | .ok n => s.openNode D path n flags

def openCreate : Option (State V T C × Result) :=
  if (s.routeCgroup path).isSome then some (s, .error .perm)
  else match s.createErrand path with
    | none => some (s, .error .noent)
    | some e =>
      (s.perform D e).bind fun p =>
        match p.2 with
        | .error _ => some p
        | .ok _ => (p.1.resolve D path true).bind (p.1.openAnswer D path flags)

def vfsFileOpen : Option (State V T C × Result) :=
  (s.resolve D path true).bind fun a =>
    match a with
    | .error .noent =>
      if flags &&& oCreat ≠ 0 then s.openCreate D path flags else some (s, .error .noent)
    | a => s.openAnswer D path flags a

end State

inductive VfsOp where
  | open (path : Path) (flags : ℕ)
  | truncate (path : Path) (len : ℕ)
  | unlink (path : Path)
  | mkdir (path : Path)
  | rmdir (path : Path)
  | symlink (target path : Path)
  | link (oldpath newpath : Path)
  | rename (src dst : Path)
  | chmod (path : Path) (mode : ℕ)
  | chown (path : Path) (uid gid : ℕ) (follow : Bool)

namespace State

variable {V T C K : Type} (D : Drivers V T C K) (s : State V T C)

/-- A call, run to its end; `none` when a walk over a volume does not come back. -/
def exec : VfsOp → Option (State V T C × Result)
  | .open path flags => s.vfsFileOpen D path flags
  | .truncate path len => (s.vfsTruncate D path len).bind (s.take D)
  | .unlink path => (s.vfsUnlink D path).bind (s.take D)
  | .mkdir path => (s.vfsMkdir D path).bind (s.take D)
  | .rmdir path => (s.vfsRmdir D path).bind (s.take D)
  | .symlink target path => (s.vfsSymlink D target path).bind (s.take D)
  | .link oldpath newpath => (s.vfsLink D oldpath newpath).bind (s.take D)
  | .rename src dst => (s.vfsRename D src dst).bind (s.take D)
  | .chmod path mode => (s.vfsChmod D path mode).bind (s.take D)
  | .chown path uid gid follow => (s.vfsChown D path uid gid follow).bind (s.take D)

end State

end Gnos.Vfs
