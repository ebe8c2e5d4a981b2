import Gnos.Ext2.Model
import Gnos.ProofKit.Chain
import Gnos.ProofKit.Linked

/-! The in-memory filesystem of `src/fs/tmpfs.c`: the node pool, the instances that share it, and
the operations on names.  The child list of a directory is threaded through its children; these
links are kept apart from the other fields of a node, as `children` and `next`. -/

namespace Gnos.Tmpfs

open ProofKit Function
open Ext2 (Path)

/-- `MAX_TMPFS_NODES`, `TMPFS_ARENA`, `TMPFS_MAX_INST`, `VFS_NAME_MAX` and `GNUOS_PATH_MAX`. -/
def maxNodes : ℕ := 2048
def arenaSize : ℕ := 8 * 1024 * 1024
def maxInst : ℕ := 8
def nameMax : ℕ := 32
def pathMax : ℕ := 256
def slash : UInt8 := 47

inductive Kind where
  | dir | file | symlink
  deriving DecidableEq

/-- `struct tmpfs_node` without its links; `data` is a place in the arena, `shm` the frames. -/
structure Node where
  name : Path := []
  kind : Kind := .file
  size : ℕ := 0
  mode : ℕ := 0
  ino : ℕ := 0
  data : Option ℕ := none
  datacap : ℕ := 0
  shm : List ℕ := []
  mappers : ℕ := 0
  target : Option Path := none
  parent : Option ℕ := none
  refs : ℤ := 0
  unlinked : Bool := false

structure Inst where
  root : ℕ
  nextIno : ℕ

structure State where
  pool : ℕ → Node
  children : ℕ → Option ℕ
  next : ℕ → Option ℕ
  free : List ℕ
  arena : ℕ → UInt8
  arenaOff : ℕ
  mem : ℕ → UInt8
  insts : List Inst
  instUsed : ℕ

inductive Err where
  | noent | exist | isdir | notdir | notempty | busy | inval | nospc | nomem
  deriving DecidableEq

namespace State

/-- After `pool_ensure_init`. -/
def init : State where
  pool _ := {}
  children _ := none
  next _ := none
  free := List.range maxNodes
  arena _ := 0
  arenaOff := 0
  mem _ := 0
  insts := []
  instUsed := 0

variable (s : State)

def modify (i : ℕ) (f : Node → Node) : State :=
  { s with pool := update s.pool i (f (s.pool i)) }

def nodeAlloc : Option (ℕ × State) :=
  match s.free with
  | [] => none
  | n :: rest =>
    some (n, { s with
      pool := update s.pool n { refs := 1 }
      children := update s.children n none
      next := update s.next n none
      free := rest })

def nodeFree (n : ℕ) : State :=
  { s.modify n fun a => { a with shm := [] } with free := n :: s.free }

def nodeReleaseCheck (n : ℕ) : State :=
  if (s.pool n).refs = 0 ∧ (s.pool n).unlinked ∧ (s.pool n).mappers = 0 then s.nodeFree n else s

def arenaAlloc (n : ℕ) : Option (ℕ × State) :=
  let n := if n = 0 then 1 else n
  if arenaSize < (s.arenaOff + n) % 2 ^ 32 then none
  else some (s.arenaOff, { s with arenaOff := (s.arenaOff + n) % 2 ^ 32 })

def kids (d : ℕ) : List ℕ := walk s.next maxNodes (s.children d)

def findChild (d : ℕ) (name : Path) : Option ℕ := (s.kids d).find? fun c => (s.pool c).name = name

def detach (parent child : ℕ) : State :=
  if s.children parent = some child then
    { s with children := update s.children parent (s.next child) }
  else
    match (s.kids parent).find? fun c => s.next c = some child with
    | none => s
    | some c => { s with next := update s.next c (s.next child) }

def link (n parent : ℕ) (leaf : Path) : State :=
  { s.modify n fun a => { a with name := leaf.take (nameMax - 1), parent := some parent } with
    next := update s.next n (s.children parent)
    children := update s.children parent (some n) }

/-- One component of a path: `.` and `..` are the directory and its parent. -/
def walkOne (cur : ℕ) (comp : Path) : Option ℕ :=
  if comp = [46] then some cur
  else if comp = [46, 46] then some ((s.pool cur).parent.getD cur)
  else s.findChild cur comp

def walkPath (root : ℕ) (rel : Path) : Option ℕ :=
  if rel.head? = some slash then ((rel.splitOn slash).filter (· ≠ [])).foldlM s.walkOne root
  else none

def stripSlashes (p : Path) : Path :=
  match p.rdropWhile (· = slash) with
  | [] => p.take 1
  | q => q

def lastSlash (p : Path) : ℕ :=
  (List.range p.length).foldl (fun at_ i => if p.getD i 0 = slash then i else at_) 0

def splitParent (root : ℕ) (rel : Path) : Option (ℕ × Path) :=
  let tmp := stripSlashes (rel.take (pathMax - 1))
  if tmp = [] ∨ tmp = [slash] then none
  else
    let cut := lastSlash tmp
    let leaf := tmp.drop (cut + 1)
    if leaf = [] ∨ nameMax ≤ leaf.length then none
    else (s.walkPath root (if cut = 0 then [slash] else tmp.take cut)).map fun d => (d, leaf)

def root (fs : ℕ) : ℕ := (s.insts.getD fs ⟨0, 0⟩).root

def tmpfsCreate : State :=
  if maxInst ≤ s.instUsed then s
  else
    match { s with instUsed := s.instUsed + 1 }.nodeAlloc with
    | none => { s with instUsed := s.instUsed + 1 }
    | some (r, s) =>
      let s := s.modify r fun a => { a with kind := .dir, mode := 0o755, ino := 1, name := [slash] }
      { s with insts := s.insts ++ [⟨r, 2⟩] }

def isFsRoot (rel : Path) : Bool := rel.all (· = slash)

variable (fs : ℕ)

def takeIno : State :=
  { s with insts := s.insts.modify fs fun i => { i with nextIno := (i.nextIno + 1) % 2 ^ 32 } }

variable (rel : Path)

/-- What `mkdir`, `create_file` and `symlink` do up to the new node: its parent, its name and
itself. -/
def prepare (kind : Kind) (mode : ℕ) : Except Err (State × ℕ × ℕ × Path) :=
  match s.splitParent (s.root fs) rel with
  | none => .error .noent
  | some (parent, leaf) =>
    if (s.pool parent).kind ≠ .dir then .error .noent
    else if (s.findChild parent leaf).isSome then .error .exist
    else
      match s.nodeAlloc with
      | none => .error .nospc
      | some (n, s) =>
        let ino := (s.insts.getD fs ⟨0, 0⟩).nextIno
        .ok ((s.takeIno fs).modify n fun a => { a with kind, mode, ino }, n, parent, leaf)

def orDefault (mode dflt : ℕ) : ℕ := if mode &&& 0o7777 ≠ 0 then mode &&& 0o7777 else dflt

def mkdir (mode : ℕ) : State × Except Err Unit :=
  if isFsRoot rel then (s, .error .exist)
  else
    match s.prepare fs rel .dir (orDefault mode 0o755) with
    | .error e => (s, .error e)
    | .ok (s, n, parent, leaf) => (s.link n parent leaf, .ok ())

def createFile (mode : ℕ) : State × Except Err Unit :=
  if isFsRoot rel then (s, .error .isdir)
  else
    match s.prepare fs rel .file (orDefault mode 0o644) with
    | .error e => (s, .error e)
    | .ok (s, n, parent, leaf) => (s.link n parent leaf, .ok ())

/-- The target is copied into the arena; without room for it the node is given back. -/
def symlink (target : Path) (fs : ℕ) (rel : Path) : State × Except Err Unit :=
  if isFsRoot rel then (s, .error .exist)
  else
    match s.prepare fs rel .symlink 0o777 with
    | .error e => (s, .error e)
    | .ok (s, n, parent, leaf) =>
      match s.arenaAlloc ((target.length + 1) % 2 ^ 32) with
      | none => (s.nodeFree n, .error .nospc)
      | some (at_, s) =>
        let arena i :=
          if at_ ≤ i ∧ i ≤ at_ + target.length then target.getD (i - at_) 0 else s.arena i
        (({ s with arena }.modify n fun a => { a with target := some target }).link n parent leaf,
          .ok ())

def unlink : State × Except Err Unit :=
  if isFsRoot rel then (s, .error .isdir)
  else
    match s.splitParent (s.root fs) rel with
    | none => (s, .error .noent)
    | some (parent, leaf) =>
      match s.findChild parent leaf with
      | none => (s, .error .noent)
      | some n =>
        if (s.pool n).kind = .dir then (s, .error .isdir)
        else
          let s := (s.detach parent n).modify n fun a =>
            { a with unlinked := true, refs := a.refs - 1 }
          (if (s.pool n).refs = 0 then s.nodeReleaseCheck n else s, .ok ())

def rmdir : State × Except Err Unit :=
  if isFsRoot rel then (s, .error .busy)
  else
    match s.splitParent (s.root fs) rel with
    | none => (s, .error .noent)
    | some (parent, leaf) =>
      match s.findChild parent leaf with
      | none => (s, .error .noent)
      | some n =>
        if (s.pool n).kind ≠ .dir then (s, .error .notdir)
        else if (s.children n).isSome then (s, .error .notempty)
        else ((s.detach parent n).nodeFree n, .ok ())

def replaceErr (dst src : ℕ) : Option Err :=
  if (s.pool dst).kind = .dir ∧ (s.pool src).kind ≠ .dir then some .isdir
  else if (s.pool dst).kind ≠ .dir ∧ (s.pool src).kind = .dir then some .notdir
  else if (s.pool dst).kind = .dir ∧ (s.children dst).isSome then some .notempty
  else none

/-- `rename` once both places are known. -/
def renameAt (sp src dp : ℕ) (dleaf : Path) : State × Except Err Unit :=
  if (s.pool dp).kind ≠ .dir then (s, .error .noent)
  -- a directory does not go below itself
  else if src ∈ chain (fun a => (s.pool a).parent) maxNodes dp then (s, .error .inval)
  else
    match s.findChild dp dleaf with
    | none => ((s.detach sp src).link src dp dleaf, .ok ())
    | some dst =>
      if dst = src then (s, .ok ())
      else
        match s.replaceErr dst src with
        | some e => (s, .error e)
        | none => ((((s.detach dp dst).nodeFree dst).detach sp src).link src dp dleaf, .ok ())

def rename (srel drel : Path) : State × Except Err Unit :=
  if isFsRoot srel ∨ isFsRoot drel then (s, .error .busy)
  else
    match s.splitParent (s.root fs) srel with
    | none => (s, .error .noent)
    | some (sp, sleaf) =>
      match s.findChild sp sleaf with
      | none => (s, .error .noent)
      | some src =>
        match s.splitParent (s.root fs) drel with
        | none => (s, .error .noent)
        | some (dp, dleaf) => s.renameAt sp src dp dleaf

end State

end Gnos.Tmpfs
