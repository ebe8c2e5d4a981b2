import Gnos.Vfs.Model

/-! Which filesystem a call of the VFS changes.  `route` is where `resolve` takes the paths of a
call; `own` is the filesystem of the call's own chain of cases, which asks for cgroup and tmpfs
mounts only and takes the root volume for everything else. -/

namespace Gnos.Vfs

open Function Option Prod

open Ext2 (Path Volume Disk Geometry dot slash)
open State (devName devNotShm)

namespace VfsOp

def paths : VfsOp → List Path
  | .open path _ | .truncate path _ | .unlink path | .mkdir path | .rmdir path | .symlink _ path
  | .chmod path _ | .chown path _ _ _ => [path]
  | .link oldpath newpath => [oldpath, newpath]
  | .rename src dst => [src, dst]

def follow : VfsOp → Bool
  | .open _ _ | .truncate _ _ | .chmod _ _ => true
  | .chown _ _ _ follow => follow
  | _ => false

end VfsOp

namespace Layout

variable (l : Layout) (path : Path)

/-- The filesystem that the calls' own cases take a path to. -/
def own : Fs :=
  if (l.routeCgroup path).isSome then .cgroup
  else match l.routeTmpfs path with
    | some (i, _) => .tmpfs i
    | none => .root

/-- The generated trees that a path is in. -/
def below : Fs → Bool
  | .proc => under procDir path
  | .debug => under debugDir path
  | .sys => under sysDir path
  | _ => false

/-- The filesystem that a path is on, by the mounts and the trees above it. -/
def home : Option Fs := (l.routeBy (below path) path).map fst

/-- The calls' own cases agree with the mounts, or they refuse to change the path, or the root
volume that they lead to is not there.  Below `/dev/` nothing is made or removed in a cgroup, and a
device mount itself has no inode. -/
def Safe : Prop :=
  match l.own path with
  | .cgroup => l.home path = some .cgroup ∨ devName path
  | .root => l.rootOk →
      l.home path = some .root ∨ devNotShm path ∧ l.routeDev path = some [slash]
  | fs => l.home path = some fs

variable {l path}

theorem routeLongest_mem {α : Type} {sel : MountKind → Option α} {ms : List Mount}
    {best : Option (Mount × α)} {m : Mount} {a : α}
    (h : routeLongest sel path ms best = some (m, a)) :
    best = some (m, a) ∨ m ∈ ms ∧ sel m.kind = some a := by
  induction ms generalizing best with
  | nil => exact .inl h
  | cons m' ms ih =>
    unfold routeLongest at h
    split at h
    · exact (ih h).imp_right fun hIn => ⟨List.mem_cons_of_mem _ hIn.1, hIn.2⟩
    · next a' ha' =>
      split at h
      · rcases ih h with hEq | hIn
        · cases hEq
          exact .inr ⟨List.mem_cons_self, ha'⟩
        · exact .inr ⟨List.mem_cons_of_mem _ hIn.1, hIn.2⟩
      · exact (ih h).imp_right fun hIn => ⟨List.mem_cons_of_mem _ hIn.1, hIn.2⟩

theorem exists_cgroup (h : (l.routeCgroup path).isSome) : ∃ m ∈ l.mounts, m.kind = .cgroup := by
  obtain ⟨rel, hRel⟩ := isSome_iff_exists.mp h
  obtain ⟨⟨m, a⟩, hm, -⟩ := map_eq_some_iff.mp hRel
  obtain hNone | ⟨hIn, hKind⟩ := routeLongest_mem hm
  · cases hNone
  · exact ⟨m, hIn, by by_contra hne; simp [hne] at hKind⟩

theorem exists_tmpfs {i : ℕ} {rel : Path} (h : l.routeTmpfs path = some (i, rel)) :
    ∃ m ∈ l.mounts, m.kind = .tmpfs i := by
  obtain ⟨⟨m, a⟩, hm, hEq⟩ := map_eq_some_iff.mp h
  obtain rfl : a = i := congrArg fst hEq
  obtain hNone | ⟨hIn, hKind⟩ := routeLongest_mem hm
  · cases hNone
  · refine ⟨m, hIn, ?_⟩
    split at hKind
    · next hm => rw [hm, some.inj hKind]
    · cases hKind

/-- A path that is in no generated tree is routed alike by all of them. -/
theorem routeBy_of_home {takes : Fs → Bool} {fs : Fs}
    (hTakes : ∀ fs, below path fs = false → takes fs = false) (h : l.home path = some fs)
    (hfs : fs ≠ .proc ∧ fs ≠ .debug ∧ fs ≠ .sys) :
    ∃ rel, l.routeBy takes path = some (fs, rel) := by
  obtain ⟨⟨fs, rel⟩, hBy, rfl⟩ := map_eq_some_iff.mp h
  refine ⟨rel, ?_⟩
  unfold routeBy at hBy ⊢
  -- A tree that the path is in comes out itself, after the devices and the cgroups at most.
  cases hProc : below path .proc
  · cases hDebug : below path .debug
    · cases hSys : below path .sys
      · simpa [hTakes _ hProc, hTakes _ hDebug, hTakes _ hSys, hProc, hDebug, hSys] using hBy
      · simp only [hTakes _ hProc, hTakes _ hDebug, hProc, hDebug, hSys] at hBy ⊢
        grind
    · grind
  · grind

end Layout

namespace State

variable {V T C K : Type} (D : Drivers V T C K) (s : State V T C)

/-- The filesystems that `resolve` takes the paths of a call to. -/
def routes (op : VfsOp) : List Fs :=
  op.paths.filterMap fun p => (s.route p op.follow).map fst

def Mounted : Fs → Prop
  | .root => s.rootOk
  | .bfs => s.bfsOk ∧ ∃ m ∈ s.mounts, m.kind = .ext2
  | .tmpfs i => ∃ m ∈ s.mounts, m.kind = .tmpfs i
  | .cgroup => ∃ m ∈ s.mounts, m.kind = .cgroup
  | .fat => s.fatMnt.isSome
  | .iso => s.isoMnt.isSome
  | .dev | .proc | .debug | .sys => True

/-- The inodes and directories of a filesystem are the same in both states. -/
def Same (s' : State V T C) : Fs → Prop
  | .root => D.disk s'.root = D.disk s.root
  | .bfs => D.disk s'.bfs = D.disk s.bfs
  | .tmpfs i => s'.tmpfs i = s.tmpfs i
  | .cgroup => s'.cgroup = s.cgroup
  | .fat => s'.fat = s.fat
  | .iso => s'.iso = s.iso
  | .dev => s'.devs = s.devs
  | .proc => s'.proc = s.proc
  | .debug => s'.debug = s.debug
  | .sys => s'.sys = s.sys

/-- Only the filesystems `R` may have changed. -/
def Keeps (R : List Fs) (s' : State V T C) : Prop :=
  ∀ fs, s.Mounted fs → fs ∉ R → s.Same D s' fs

/-- A call that comes back changes only the filesystems its paths are on. -/
def Isolated (op : VfsOp) : Prop :=
  ∀ s' r, s.exec D op = some (s', r) → s.Keeps D (s.routes op) s'

def Errand.fs : Errand → Fs
  | .root _ => .root
  | .tmpfs i _ => .tmpfs i
  | .cgroup _ => .cgroup

/-- The driver function that a call comes to, if there is one, is one of the filesystems `R`. -/
def Homed (R : List Fs) (st : Option Step) : Prop :=
  ∀ e, st = some (.run e) → s.Mounted e.fs → e.fs ∈ R

variable {D s} {s' s'' : State V T C} {e : Errand} {r : Result} {R : List Fs} {path : Path}
  {n : Node} {flags : ℕ} {follow : Bool}

theorem Same.refl (fs : Fs) : s.Same D s fs := by
  cases fs <;> rfl

theorem Same.trans {fs : Fs} (h : s.Same D s' fs) (h' : s'.Same D s'' fs) : s.Same D s'' fs := by
  cases fs <;> exact Eq.trans h' h

theorem Same.of_ret {r' : Result} {fs : Fs} (h : some (s, r') = some (s', r)) : s.Same D s' fs := by
  obtain rfl := congrArg fst (some.inj h)
  exact refl fs

theorem same_perform {fs : Fs} (h : s.perform D e = some (s', r)) (hfs : fs ≠ e.fs) :
    s.Same D s' fs := by
  cases e with
  | root c =>
    obtain ⟨⟨v, code⟩, -, hEq⟩ := map_eq_some_iff.mp h
    obtain rfl := congrArg fst hEq.symm
    cases fs <;> first | rfl | exact absurd rfl hfs
  | tmpfs i c =>
    obtain rfl := congrArg fst (some.inj h).symm
    cases fs with
    | tmpfs j =>
      have hji : j ≠ i := fun hEq => hfs (congrArg Fs.tmpfs hEq)
      exact update_of_ne hji _ _
    | _ => rfl
  | cgroup c =>
    obtain rfl := congrArg fst (some.inj h).symm
    cases fs <;> first | rfl | exact absurd rfl hfs

theorem Homed.keeps {st : Option Step} (hHome : s.Homed R st)
    (h : st.bind (s.take D) = some (s', r)) : s.Keeps D R s' := by
  intro fs hMounted hStray
  obtain ⟨st, rfl, hTake⟩ := bind_eq_some_iff.mp h
  cases st with
  | ret res => exact .of_ret hTake
  | run e =>
    refine same_perform hTake ?_
    rintro rfl
    exact hStray (hHome e rfl hMounted)

theorem homed_ret (res : Result) : s.Homed R (some (.ret res)) := fun e h => by cases h

theorem homed_run (h : s.Mounted e.fs → e.fs ∈ R) : s.Homed R (some (.run e)) := by
  intro e' he'
  cases he'
  exact h

theorem homed_gated {g : Option (Except Errno Unit)} {next : Option Step} (h : s.Homed R next) :
    s.Homed R (gated g next) := by
  intro e he
  obtain ⟨a, -, ha⟩ := bind_eq_some_iff.mp he
  cases a with
  | error err => cases ha
  | ok u => exact h e ha

theorem mem_routes {op : VfsOp} {fs : Fs} {rel : Path} (hPath : path ∈ op.paths)
    (h : s.route path op.follow = some (fs, rel)) : fs ∈ s.routes op :=
  List.mem_filterMap.mpr ⟨path, hPath, by rw [h]; rfl⟩

theorem route_of_home {fs : Fs} (h : s.home path = some fs)
    (hfs : fs ≠ .proc ∧ fs ≠ .debug ∧ fs ≠ .sys) (follow : Bool) :
    ∃ rel, s.route path follow = some (fs, rel) := by
  refine Layout.routeBy_of_home (fun fs hBelow => ?_) h hfs
  cases fs <;> simp_all [takes, Layout.below, procResolve, debugResolve, sysResolve, claims]

section

/-! What a safe path is good for in each of the calls' own cases. -/

variable {op : VfsOp} (hSafe : s.Safe path) (hPath : path ∈ op.paths)
include hSafe hPath

theorem cgroup_mem_routes (hOwn : (s.routeCgroup path).isSome) (hDev : devName path = false) :
    .cgroup ∈ s.routes op := by
  simp only [Layout.Safe, Layout.own, hOwn, if_true, hDev, Bool.false_eq_true, or_false] at hSafe
  obtain ⟨rel, hRoute⟩ := route_of_home hSafe (by simp) op.follow
  exact mem_routes hPath hRoute

theorem tmpfs_mem_routes {i : ℕ} {rel : Path} (hCg : ¬(s.routeCgroup path).isSome)
    (hOwn : s.routeTmpfs path = some (i, rel)) : .tmpfs i ∈ s.routes op := by
  simp only [Layout.Safe, Layout.own, hCg, Bool.false_eq_true, if_false, hOwn] at hSafe
  obtain ⟨rel', hRoute⟩ := route_of_home hSafe (by simp) op.follow
  exact mem_routes hPath hRoute

theorem root_mem_routes (hCg : ¬(s.routeCgroup path).isSome) (hTmpfs : s.routeTmpfs path = none)
    (hDev : ¬(devNotShm path ∧ s.routeDev path = some [slash])) (hMounted : s.Mounted .root) :
    .root ∈ s.routes op := by
  simp only [Layout.Safe, Layout.own, hCg, Bool.false_eq_true, if_false, hTmpfs] at hSafe
  obtain ⟨rel, hRoute⟩ := route_of_home ((hSafe hMounted).resolve_right hDev) (by simp) op.follow
  exact mem_routes hPath hRoute

end

theorem head_of_devName (h : devName path) : path.head? = some slash := by
  obtain ⟨rest, rfl⟩ := List.isPrefixOf_iff_prefix.mp h
  rfl

theorem devName_of_devNotShm (h : devNotShm path) : devName path := by
  simp only [devNotShm, Bool.and_eq_true] at h
  exact h.1

theorem resolve_devMount (hDev : devNotShm path) (h : s.routeDev path = some [slash]) :
    s.resolve D path follow = some (.ok devDirNode) := by
  have hHead := head_of_devName (devName_of_devNotShm hDev)
  simp [resolve, route, Layout.routeBy, hHead, h]

section

variable {op : VfsOp} {c : Path → TmpfsCall} {last : Option Step} (hSafe : s.Safe path)
  (hPath : path ∈ op.paths)
  (hLast : ¬(s.routeCgroup path).isSome → s.routeTmpfs path = none → s.Homed (s.routes op) last)
include hSafe hPath hLast

theorem homed_refused : s.Homed (s.routes op)
    (if (s.routeCgroup path).isSome then some (.ret (.error .perm))
      else match s.routeTmpfs path with
        | some (i, rel) => some (.run (.tmpfs i (c rel)))
        | none => last) := by
  split
  · exact homed_ret _
  next hCg =>
  split
  · next hTmpfs => exact homed_run fun _ => tmpfs_mem_routes hSafe hPath hCg hTmpfs
  · next hTmpfs => exact hLast hCg hTmpfs

theorem homed_made {cg : Path → CgroupCall} (hDev : ¬devName path) : s.Homed (s.routes op)
    (match s.routeCgroup path with
      | some crel => some (.run (.cgroup (cg crel)))
      | none =>
        match s.routeTmpfs path with
        | some (i, rel) => some (.run (.tmpfs i (c rel)))
        | none => last) := by
  split
  · next hCg =>
    exact homed_run fun _ => cgroup_mem_routes hSafe hPath (by rw [hCg]; rfl) (by simpa using hDev)
  next hCg =>
  split
  · next hTmpfs => exact homed_run fun _ => tmpfs_mem_routes hSafe hPath (by simp [hCg]) hTmpfs
  · next hTmpfs => exact hLast (by simp [hCg]) hTmpfs

end

section

variable (hSafe : s.Safe path)
include hSafe

theorem homed_vfsUnlink : s.Homed (s.routes (.unlink path)) (s.vfsUnlink D path) := by
  have hPath : path ∈ (VfsOp.unlink path).paths := .head _
  unfold vfsUnlink
  split
  · exact homed_ret _
  next hShm =>
  refine homed_gated (homed_refused hSafe hPath fun hCg hTmpfs => ?_)
  split
  · exact homed_ret _
  · exact homed_run (root_mem_routes hSafe hPath hCg hTmpfs fun h => hShm h.1)

theorem homed_vfsRmdir : s.Homed (s.routes (.rmdir path)) (s.vfsRmdir D path) := by
  have hPath : path ∈ (VfsOp.rmdir path).paths := .head _
  unfold vfsRmdir
  split
  · exact homed_ret _
  next hDev =>
  refine homed_gated (homed_made hSafe hPath (fun hCg hTmpfs e he => ?_) hDev)
  obtain ⟨a, -, ha⟩ := map_eq_some_iff.mp he
  split at ha
  · cases ha
  split at ha
  · cases ha
  · cases ha
    exact root_mem_routes hSafe hPath hCg hTmpfs fun h => hDev (devName_of_devNotShm h.1)

theorem homed_vfsMkdir : s.Homed (s.routes (.mkdir path)) (s.vfsMkdir D path) := by
  have hPath : path ∈ (VfsOp.mkdir path).paths := .head _
  unfold vfsMkdir
  split
  · exact homed_ret _
  next hDev =>
  refine homed_gated (homed_made hSafe hPath (fun hCg hTmpfs => ?_) hDev)
  split
  · exact homed_ret _
  · exact homed_run
      (root_mem_routes hSafe hPath hCg hTmpfs fun h => hDev (devName_of_devNotShm h.1))

theorem homed_vfsSymlink (target : Path) :
    s.Homed (s.routes (.symlink target path)) (s.vfsSymlink D target path) := by
  have hPath : path ∈ (VfsOp.symlink target path).paths := .head _
  unfold vfsSymlink
  split
  · exact homed_ret _
  next hDev =>
  refine homed_gated (homed_refused hSafe hPath fun hCg hTmpfs => ?_)
  exact homed_run
    (root_mem_routes hSafe hPath hCg hTmpfs fun h => hDev (devName_of_devNotShm h.1))

theorem homed_vfsLink (oldpath : Path) :
    s.Homed (s.routes (.link oldpath path)) (s.vfsLink D oldpath path) := by
  have hPath : path ∈ (VfsOp.link oldpath path).paths := by simp [VfsOp.paths]
  unfold vfsLink
  split
  · exact homed_ret _
  next hDev =>
  refine homed_gated ?_
  split
  · exact homed_ret _
  next hCg =>
  split
  · exact homed_ret _
  · next hTmpfs =>
    simp only [Bool.or_eq_true, not_or] at hDev hCg
    exact homed_run (root_mem_routes hSafe hPath hCg.2 (by simpa using hTmpfs)
      fun h => hDev.2 (devName_of_devNotShm h.1))

theorem homed_vfsRename (dst : Path) :
    s.Homed (s.routes (.rename path dst)) (s.vfsRename D path dst) := by
  have hPath : path ∈ (VfsOp.rename path dst).paths := by simp [VfsOp.paths]
  unfold vfsRename
  split
  · exact homed_ret _
  next hDev =>
  split
  · exact homed_ret _
  next hCg =>
  simp only [Bool.or_eq_true, not_or] at hDev hCg
  refine homed_gated (homed_gated ?_)
  split
  · next hTmpfs _ =>
    exact homed_run (root_mem_routes hSafe hPath hCg.1 hTmpfs
      fun h => hDev.1 (devName_of_devNotShm h.1))
  · next hTmpfs _ =>
    split
    · exact homed_ret _
    · exact homed_run fun _ => tmpfs_mem_routes hSafe hPath hCg.1 hTmpfs
  · exact homed_ret _

theorem homed_vfsTruncate (len : ℕ) :
    s.Homed (s.routes (.truncate path len)) (s.vfsTruncate D path len) := by
  have hPath : path ∈ (VfsOp.truncate path len).paths := .head _
  unfold vfsTruncate
  split
  · exact homed_ret _
  next hShm =>
  refine homed_refused hSafe hPath fun hCg hTmpfs => ?_
  split
  · exact homed_ret _
  intro e he
  obtain ⟨a, -, ha⟩ := map_eq_some_iff.mp he
  split at ha
  · cases ha
  split at ha
  · cases ha
  split at ha
  · cases ha
  · cases ha
    exact root_mem_routes hSafe hPath hCg hTmpfs fun h => hShm h.1

theorem homed_onInode {op : VfsOp} {c : ℕ → Ext2Call} (hPath : path ∈ op.paths)
    (hCg : ¬(s.routeCgroup path).isSome) (hTmpfs : s.routeTmpfs path = none) :
    s.Homed (s.routes op) (onInode (s.resolve D path follow) c) := by
  intro e he hMounted
  obtain ⟨a, hAns, ha⟩ := map_eq_some_iff.mp he
  split at ha
  · cases ha
  split at ha
  · cases ha
  next n hIno =>
  cases ha
  refine root_mem_routes hSafe hPath hCg hTmpfs (fun h => hIno ?_) hMounted
  rw [resolve_devMount h.1 h.2] at hAns
  cases hAns
  rfl

theorem homed_vfsChmod (mode : ℕ) :
    s.Homed (s.routes (.chmod path mode)) (s.vfsChmod D path mode) := by
  have hPath : path ∈ (VfsOp.chmod path mode).paths := .head _
  exact homed_refused hSafe hPath fun hCg hTmpfs => homed_onInode hSafe hPath hCg hTmpfs

theorem homed_vfsChown (uid gid : ℕ) (follow : Bool) :
    s.Homed (s.routes (.chown path uid gid follow)) (s.vfsChown D path uid gid follow) := by
  have hPath : path ∈ (VfsOp.chown path uid gid follow).paths := .head _
  unfold vfsChown
  split
  · exact homed_ret _
  next hCg =>
  split
  · exact homed_ret _
  · next hTmpfs => exact homed_onInode hSafe hPath hCg (by simpa using hTmpfs)

end

/-- The filesystem that an open creates and empties files on. -/
def fileFs (s : State V T C) (path : Path) : Fs :=
  match s.routeTmpfs path with
  | some (i, _) => .tmpfs i
  | none => .root

theorem truncErrand_fs : (s.truncErrand path n).fs = s.fileFs path := by
  unfold truncErrand fileFs
  cases s.routeTmpfs path <;> rfl

theorem createErrand_fs (h : s.createErrand path = some e) : e.fs = s.fileFs path := by
  unfold createErrand at h
  unfold fileFs
  split at h
  · cases h
    simp_all [Errand.fs]
  · split at h
    · cases h
      simp_all [Errand.fs]
    · cases h

theorem perform_layout (h : s.perform D e = some (s', r)) (path : Path) :
    s'.route path true = s.route path true ∧ s'.routeTmpfs path = s.routeTmpfs path := by
  cases e with
  | root c =>
    obtain ⟨⟨v, code⟩, -, hEq⟩ := map_eq_some_iff.mp h
    obtain rfl := congrArg fst hEq
    exact ⟨rfl, rfl⟩
  | tmpfs i c =>
    obtain rfl := congrArg fst (some.inj h)
    exact ⟨rfl, rfl⟩
  | cgroup c =>
    obtain rfl := congrArg fst (some.inj h)
    exact ⟨rfl, rfl⟩

/-- `fs` is not where `resolve` takes the path. -/
def Away (s : State V T C) (path : Path) (fs : Fs) : Prop :=
  ∀ rel, s.route path true ≠ some (fs, rel)

theorem same_retain {fs : Fs} (hfs : s.Away path fs) : s.Same D (s.retain D path n) fs := by
  unfold retain
  split
  · next i rel _ hRoute =>
    cases fs with
    | tmpfs j =>
      have hji : j ≠ i := by
        rintro rfl
        exact hfs rel hRoute
      exact update_of_ne hji _ _
    | _ => rfl
  · exact Same.refl fs

theorem same_install (fs : Fs) : s.Same D (s.install path n flags).1 fs := by
  unfold install
  cases s.slotAlloc with
  | none => exact Same.refl fs
  | some h => cases fs <;> rfl

/-- From the node on, an open changes another filesystem only by emptying a file that has a size. -/
theorem same_openNode {fs : Fs} (h : s.openNode D path n flags = some (s', r))
    (hfs : s.Away path fs) (hne : n.kind = .file → n.size ≠ 0 → fs ≠ s.fileFs path) :
    s.Same D s' fs := by
  unfold openNode at h
  split at h
  · exact .of_ret h
  split at h
  · next hTrunc =>
    obtain ⟨p, hRun, hEq⟩ := map_eq_some_iff.mp h
    obtain rfl : ((p.1.retain D path n).install path { n with size := 0 } flags).1 = s' :=
      congrArg fst hEq
    have hEmptied := same_perform hRun (truncErrand_fs ▸ hne hTrunc.2.1 hTrunc.2.2)
    have hAway : p.1.Away path fs := by rwa [Away, (perform_layout hRun path).1]
    exact (hEmptied.trans (same_retain hAway)).trans (same_install fs)
  · obtain rfl : ((s.retain D path n).install path n flags).1 = s' := congrArg fst (some.inj h)
    exact (same_retain hfs).trans (same_install fs)

theorem same_openAnswer {fs : Fs} {a : Answer} (h : s.openAnswer D path flags a = some (s', r))
    (hfs : s.Away path fs)
    (hne : ∀ n, a = .ok n → n.kind = .file → n.size ≠ 0 → fs ≠ s.fileFs path) :
    s.Same D s' fs := by
  cases a with
  | error err => exact .of_ret h
  | ok n => exact same_openNode h hfs (hne n rfl)

theorem same_openCreate {fs : Fs} (h : s.openCreate D path flags = some (s', r))
    (hfs : s.Away path fs) (hne : ¬(s.routeCgroup path).isSome → fs ≠ s.fileFs path) :
    s.Same D s' fs := by
  unfold openCreate at h
  split at h
  · exact .of_ret h
  next hCg =>
  split at h
  · exact .of_ret h
  next e he =>
  obtain ⟨p, hRun, hNext⟩ := bind_eq_some_iff.mp h
  have hCreate := same_perform hRun (createErrand_fs he ▸ hne hCg)
  split at hNext
  · obtain rfl := congrArg fst (some.inj hNext)
    exact hCreate
  · obtain ⟨a, -, hOpen⟩ := bind_eq_some_iff.mp hNext
    obtain ⟨hRoute, hTmpfs⟩ := perform_layout hRun path
    refine hCreate.trans (same_openAnswer hOpen (by rwa [Away, hRoute]) fun _ _ _ _ => ?_)
    rw [fileFs, hTmpfs]
    exact hne hCg

theorem same_vfsFileOpen {fs : Fs} (h : s.vfsFileOpen D path flags = some (s', r))
    (hfs : s.Away path fs)
    (hCreate : s.resolve D path true = some (.error .noent) → ¬(s.routeCgroup path).isSome →
      fs ≠ s.fileFs path)
    (hTrunc : ∀ n, s.resolve D path true = some (.ok n) → n.kind = .file → n.size ≠ 0 →
      fs ≠ s.fileFs path) : s.Same D s' fs := by
  obtain ⟨a, hFind, hNext⟩ := bind_eq_some_iff.mp h
  split at hNext
  · split at hNext
    · exact same_openCreate hNext hfs (hCreate hFind)
    · exact .of_ret hNext
  · exact same_openAnswer hNext hfs fun n hn => hTrunc n (hn ▸ hFind)

theorem route_of_devName (h : devName path) : ∃ rel, s.route path follow = some (.dev, rel) := by
  unfold route Layout.routeBy
  rw [if_neg (by simp [head_of_devName h])]
  cases s.routeDev path with
  | some rel => exact ⟨rel, rfl⟩
  | none => exact ⟨path.drop 5, if_pos h⟩

theorem resolve_dev_kind {rel : Path} (h : s.route path follow = some (.dev, rel))
    (hFind : s.resolve D path follow = some (.ok n)) : n.kind ≠ .file := by
  have hLookup : ∀ name, s.devLookup name = .ok n → n.kind ≠ .file := by
    intro name hName
    unfold devLookup at hName
    split at hName
    · next d hd =>
      cases hName
      exact s.devs_kind d (List.mem_of_find?_eq_some hd)
    · cases hName
  simp only [resolve, h, some.injEq] at hFind
  split at hFind
  · split at hFind
    · cases hFind
      decide
    · exact hLookup _ hFind
  · exact hLookup _ hFind

theorem resolve_noDevs (hDev : devName path) (h : s.routeDev path ≠ some [slash])
    (hDevs : s.devs = []) : s.resolve D path follow = some (.error .noent) := by
  have hLookup : ∀ name, s.devLookup name = .error .noent := by simp [devLookup, hDevs]
  obtain ⟨rel, hRoute⟩ : ∃ rel, s.route path follow = some (.dev, rel) := route_of_devName hDev
  simp only [resolve, hRoute, hLookup]
  split
  · next rel' hRel =>
    rw [if_neg fun hEq => h (hRel.trans (by rw [hEq]))]
  · rfl

theorem keeps_open (hSafe : s.Safe path) (h : s.vfsFileOpen D path flags = some (s', r)) :
    s.Keeps D (s.routes (.open path flags)) s' := by
  intro fs hMounted hStray
  have hPath : path ∈ (VfsOp.open path flags).paths := .head _
  have hAway : s.Away path fs := fun rel hRoute => hStray (mem_routes hPath hRoute)
  by_cases hCg : (s.routeCgroup path).isSome
  · -- Nothing is created, and what is found is a device or a control file, which have no contents.
    refine same_vfsFileOpen h hAway (fun _ h => absurd hCg h) fun n hFind hKind hSize => ?_
    simp only [Layout.Safe, Layout.own, hCg, if_true] at hSafe
    obtain hHome | hDev := hSafe
    · obtain ⟨rel, hRoute⟩ := route_of_home hHome (by simp) true
      simp only [resolve, hRoute, some.injEq] at hFind
      exact absurd (D.cgroup_size _ _ _ hFind) hSize
    · obtain ⟨rel, hRoute⟩ := route_of_devName hDev
      exact absurd hKind (resolve_dev_kind hRoute hFind)
  · by_cases hFile : fs = s.fileFs path
    · unfold fileFs at hFile
      split at hFile
      · next hTmpfs => exact absurd (hFile ▸ tmpfs_mem_routes hSafe hPath hCg hTmpfs) hStray
      · next hTmpfs =>
        subst hFile
        by_cases hDev : devNotShm path ∧ s.routeDev path = some [slash]
        · have hFind : s.resolve D path true = some (.ok devDirNode) :=
            resolve_devMount hDev.1 hDev.2
          refine same_vfsFileOpen h hAway (fun hNone => ?_) fun n hSome hKind => ?_
          · rw [hFind] at hNone
            cases hNone
          · rw [hFind] at hSome
            cases hSome
            cases hKind
        · exact absurd (root_mem_routes hSafe hPath hCg hTmpfs hDev hMounted) hStray
    · exact same_vfsFileOpen h hAway (fun _ _ => hFile) fun _ _ _ _ => hFile

theorem isolated_of_safe (D : Drivers V T C K) {op : VfsOp} (hSafe : ∀ p ∈ op.paths, s.Safe p) :
    s.Isolated D op := by
  intro s' r h
  cases op with
  | «open» path flags => exact keeps_open (hSafe path (.head _)) h
  | truncate path len =>
    exact (homed_vfsTruncate (hSafe path (.head _)) len).keeps h
  | unlink path => exact (homed_vfsUnlink (hSafe path (.head _))).keeps h
  | mkdir path => exact (homed_vfsMkdir (hSafe path (.head _))).keeps h
  | rmdir path => exact (homed_vfsRmdir (hSafe path (.head _))).keeps h
  | symlink target path =>
    exact (homed_vfsSymlink (hSafe path (.head _)) target).keeps h
  | link oldpath newpath =>
    exact (homed_vfsLink (hSafe newpath (by simp [VfsOp.paths])) oldpath).keeps h
  | rename src dst => exact (homed_vfsRename (hSafe src (by simp [VfsOp.paths])) dst).keeps h
  | chmod path mode =>
    exact (homed_vfsChmod (hSafe path (.head _)) mode).keeps h
  | chown path uid gid follow =>
    exact (homed_vfsChown (hSafe path (.head _)) uid gid follow).keeps h

end State

/-- Drivers whose filesystems are empty and change with every call. -/
def countingDrivers : Drivers ℕ ℕ ℕ ℕ where
  lookup _ _ _ := some none
  ext2 v _ := some (v + 1, .ok)
  setCreator v _ _ := v
  disk v := v
  disk_setCreator _ _ _ := rfl
  tmpfsResolve _ _ := .error .noent
  tmpfs t _ := (t + 1, .ok 0)
  cgroupResolve _ _ := .error .noent
  cgroup_size _ _ _ h := by cases h
  cgroup c _ := (c + 1, .ok 0)

namespace Layout

variable {l : Layout} {path : Path}

/-- The layout with nothing on any of its filesystems. -/
def bare (l : Layout) : State ℕ ℕ ℕ where
  toLayout := l
  root := 0
  bfs := 0
  tmpfs := fun _ => 0
  cgroup := 0
  devs := []
  devs_kind := by simp
  proc := fun _ => .error .noent
  debug := fun _ => .error .noent
  sys := fun _ _ => .error .noent
  fat := fun _ => .error .noent
  iso := fun _ => .error .noent
  caller := none
  files := fun _ => ⟨0, State.devDirNode, 0, 0, []⟩

theorem not_isolated_bare {op : VfsOp} {s' : State ℕ ℕ ℕ} {r : Result} (fs : Fs)
    (hPaths : op.paths = [path]) (hRun : l.bare.exec countingDrivers op = some (s', r))
    (hMounted : l.bare.Mounted fs) (hHome : l.home path ≠ some fs)
    (hDiff : ¬l.bare.Same countingDrivers s' fs) : ¬l.bare.Isolated countingDrivers op := by
  intro hIso
  refine hDiff (hIso s' r hRun fs hMounted ?_)
  have hTakes : l.bare.takes path op.follow = below path := by
    funext fs
    cases fs <;> simp only [State.takes, below, State.procResolve, State.debugResolve,
      State.sysResolve] <;> split <;> simp_all [State.claims, bare]
  rw [State.routes, hPaths]
  simp only [State.route, hTakes, List.mem_filterMap, List.mem_singleton, exists_eq_left]
  exact hHome

theorem exists_stray_call (h : ¬l.Safe path) :
    ∃ op : VfsOp, op.paths = [path] ∧ ¬l.bare.Isolated countingDrivers op := by
  unfold Safe own at h
  by_cases hCg : (l.routeCgroup path).isSome
  · simp only [hCg, if_true, not_or] at h
    obtain ⟨crel, hRel⟩ := isSome_iff_exists.mp hCg
    have hRun : l.bare.exec countingDrivers (.mkdir path) =
        some ({ l.bare with cgroup := 1 }, .ok 0) := by
      simp only [State.exec, State.vfsMkdir, h.2, State.mayMutateDir, bare, State.gated,
        hRel, bind_some, State.take, State.perform, countingDrivers, State.setCgroup]
      rfl
    exact ⟨_, rfl, not_isolated_bare .cgroup rfl hRun (exists_cgroup hCg) h.1 Nat.one_ne_zero⟩
  simp only [hCg, Bool.false_eq_true, if_false] at h
  cases hTmpfs : l.routeTmpfs path with
  | some p =>
    obtain ⟨i, rel⟩ := p
    simp only [hTmpfs] at h
    have hRun : l.bare.exec countingDrivers (.chmod path 0) =
        some (l.bare.setTmpfs i 1, .ok 0) := by
      simp [State.exec, State.vfsChmod, bare, hCg, hTmpfs, State.take, State.perform,
        countingDrivers]
    refine ⟨_, rfl, not_isolated_bare (.tmpfs i) rfl hRun (exists_tmpfs hTmpfs) h ?_⟩
    simp [State.Same, State.setTmpfs, bare]
  | none =>
    simp only [hTmpfs, not_forall, not_or, not_and] at h
    obtain ⟨hOk, hHome, hDev⟩ := h
    have hStray : ∀ op : VfsOp, op.paths = [path] →
        ((l.bare.exec countingDrivers op).map fst).map (·.root) = some 1 →
        ¬l.bare.Isolated countingDrivers op := by
      intro op hPaths hExec
      obtain ⟨s', hs', hOne⟩ := map_eq_some_iff.mp hExec
      obtain ⟨⟨s'', r⟩, hRun, rfl⟩ := map_eq_some_iff.mp hs'
      refine not_isolated_bare .root hPaths hRun hOk hHome fun hSame => ?_
      exact absurd (hSame.symm.trans hOne) Nat.zero_ne_one
    by_cases hShm : devNotShm path
    · refine ⟨.open path oCreat, rfl, hStray _ rfl ?_⟩
      have hNone : ∀ v, (l.bare.setRoot v).resolve countingDrivers path true =
          some (.error .noent) := fun v =>
        State.resolve_noDevs (State.devName_of_devNotShm hShm) (hDev hShm) rfl
      have hFind : l.bare.resolve countingDrivers path true = some (.error .noent) := hNone 0
      have hMade : l.bare.perform countingDrivers (.root (.create path false)) =
          some (l.bare.setRoot 1, .ok 0) := rfl
      have hCreate : l.bare.createErrand path = some (.root (.create path false)) := by
        simp [State.createErrand, bare, hTmpfs, hOk]
      simp only [State.exec, State.vfsFileOpen, hFind, bind_some, State.openCreate, hCreate, hMade,
        hNone]
      rw [if_pos (by decide), if_neg (show ¬(l.bare.routeCgroup path).isSome from hCg)]
      rfl
    · refine ⟨.unlink path, rfl, hStray _ rfl ?_⟩
      simp [State.exec, State.vfsUnlink, hShm, State.mayMutateDir, bare, State.gated, hCg, hTmpfs,
        hOk, State.take, State.perform, countingDrivers, State.setRoot, State.stamped]

end Layout

/-- A layout keeps the calls on some paths to the filesystems they are on, whatever the drivers do
and whatever is on the filesystems, exactly if each of the paths is safe. -/
theorem isolated_iff_safe (l : Layout) (Q : Path → Prop) :
    (∀ (V T C K : Type) (D : Drivers V T C K) (s : State V T C), s.toLayout = l →
        ∀ op : VfsOp, (∀ p ∈ op.paths, Q p) → s.Isolated D op) ↔ ∀ p, Q p → l.Safe p := by
  constructor
  · intro h p hp
    by_contra hSafe
    obtain ⟨op, hPaths, hStray⟩ := l.exists_stray_call hSafe
    refine hStray (h ℕ ℕ ℕ ℕ countingDrivers l.bare rfl op ?_)
    simpa [hPaths] using hp
  · rintro hSafe V T C K D s rfl op hQ
    exact State.isolated_of_safe D fun p hp => hSafe p (hQ p hp)

def ext2Drivers (turns : ℕ) : Drivers Volume Unit Unit Disk where
  lookup v path follow := v.lookup turns path follow
  ext2 v c := match c with
    | .create path isdir => v.create turns path isdir
    | .unlink path => v.unlink turns path
    | .symlink target path => v.symlink turns target path
    | .link oldpath newpath => v.link turns oldpath newpath
    | .rename src dst => v.rename turns src dst
    | .truncate ino => some (v.truncate ino)
    | .setsize ino len => some (v.setsize ino len)
    | .chmod ino mode => some (v.chmod ino mode)
    | .chown ino uid gid => some (v.chown ino uid gid)
  setCreator v uid gid := { v with creatorUid := uid, creatorGid := gid }
  disk := Volume.disk
  disk_setCreator _ _ _ := rfl
  tmpfsResolve _ _ := .error .noent
  tmpfs t _ := (t, .error .noent)
  cgroupResolve _ _ := .error .noent
  cgroup_size _ _ _ h := by cases h
  cgroup c _ := (c, .error .noent)

def smallGeometry : Geometry := .small 64 (by decide) (by decide)

/-- A volume with the directory `m`, inode 12, and the file `m/f`, inode 13. -/
def smallVolume : Volume where
  geo := smallGeometry
  allocHint := 1
  creatorUid := 0
  creatorGid := 0
  wtime := 0
  freeBlocks := 42
  freeInodes := 3
  group := fun _ => ⟨42, 3, 2⟩
  blockUsed := fun b => b ≤ 21
  inodeUsed := fun i => i ≤ 13
  inode := fun i =>
    if i = 2 then
      { mode := 0x41ED, size := 1024, links := 3, block := fun k => if k = 0 then 20 else 0 }
    else if i = 12 then
      { mode := 0x41ED, size := 1024, links := 2, block := fun k => if k = 0 then 21 else 0 }
    else if i = 13 then { mode := 0x81A4, links := 1 } else {}
  ptr := fun _ _ => 0
  data := fun _ _ => 0
  dir := fun b =>
    if b = 20 then
      [⟨2, 12, [dot], 2⟩, ⟨2, 12, [dot, dot], 2⟩, ⟨12, 1000, ascii ['m'], 2⟩]
    else if b = 21 then
      [⟨12, 12, [dot], 2⟩, ⟨2, 12, [dot, dot], 2⟩, ⟨13, 1000, ascii ['f'], 1⟩]
    else []

/-- Such a volume is the root, and an ISO image without files is mounted on `/m`. -/
def imageState : State Volume Unit Unit where
  mounts := [⟨ascii ['/', 'm'], .iso⟩]
  rootOk := true
  bfsOk := false
  fatMnt := none
  isoMnt := some (ascii ['/', 'm'])
  root := smallVolume
  bfs := smallVolume
  tmpfs := fun _ => ()
  cgroup := ()
  devs := []
  devs_kind := by simp
  proc := fun _ => .error .noent
  debug := fun _ => .error .noent
  sys := fun _ _ => .error .noent
  fat := fun _ => .error .noent
  iso := fun _ => .error .noent
  caller := none
  files := fun _ => ⟨0, State.devDirNode, 0, 0, []⟩

/-- An unlink on the image takes the file of the same path off the root volume below it. -/
theorem image_unlink_not_isolated :
    ¬imageState.Isolated (ext2Drivers 4) (.unlink (ascii ['/', 'm', '/', 'f'])) := by
  intro hIso
  let path := ascii ['/', 'm', '/', 'f']
  have hRun : ((imageState.exec (ext2Drivers 4) (.unlink path)).map fun p =>
      (p.1.root.disk.inode 13).map (·.links)) = some none := by decide +kernel
  obtain ⟨⟨s', r⟩, hExec, hGone⟩ := map_eq_some_iff.mp hRun
  have hSame := hIso s' r hExec .root rfl (by decide +kernel)
  have hLinks := congrArg (fun d : Disk => (d.inode 13).map (·.links)) hSame
  exact absurd (hGone.symm.trans hLinks) (by decide +kernel)

end Gnos.Vfs
