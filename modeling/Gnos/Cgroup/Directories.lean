import Gnos.Ext2.Model
import Gnos.ProofKit.Runs

/-! The directories of `kernel/cgroup/cgroup_fs.c` and the paths of `cgroup.c`.  A normalised path
is given by its names. -/

namespace Gnos.Cgroup

open ProofKit Function List Option
open Ext2 (Path slash dot)

inductive Ctrl where
  | cpu | pids | memory
  deriving DecidableEq

structure Group where
  live : Bool := false
  parent : Option ℕ := none
  children : List ℕ := []
  name : Path := []
  subtreeCtl : Ctrl → Bool := fun _ => false

abbrev Pool := ℕ → Group

inductive Err where
  | exist | inval | noent | nospc | busy

/-- What `cgfs_resolve` finds: a directory, or a control file of a cgroup by its index in the
table. -/
inductive Node where
  | dir
  | file (cg f : ℕ)
  deriving DecidableEq

def maxCgs : ℕ := 512
def nameMax : ℕ := 31
def pathMax : ℕ := 256
def root : ℕ := 0

/-- `g_files`: a name, and the controller that it belongs to. -/
def files : List (Path × Option Ctrl) :=
  [("cgroup.procs", none), ("cgroup.controllers", none), ("cgroup.subtree_control", none),
    ("cgroup.events", none), ("cgroup.stat", none), ("cpu.weight", some .cpu),
    ("cpu.max", some .cpu),
    ("cpu.stat", some .cpu), ("pids.max", some .pids), ("pids.current", some .pids),
    ("memory.current", some .memory), ("memory.max", some .memory),
    ("memory.stat", some .memory)].map
      fun (f : String × Option Ctrl) => (f.1.toUTF8.toList, f.2)

def leaf (rel : List Path) : Path := rel.getLastD []

namespace Pool

variable (s : Pool)

/-- `cg_ctrl_usable`; the chain of parents is shorter than the pool. -/
def usable (bit : Ctrl) : ℕ → ℕ → Bool
  | 0, _ => true
  | n + 1, cg => cg = root || match (s cg).parent with
    | none => true
    | some cg => (s cg).subtreeCtl bit && usable bit n cg

def nameToFile (cg : ℕ) (name : Path) : Option ℕ :=
  files.findIdx? fun f => f.2.all (s.usable · maxCgs cg) && f.1 = name

def child (cg : ℕ) (name : Path) : Option ℕ :=
  (s cg).children.find? fun c => (s c).live && (s c).name = name

/-- The cgroup whose directory a path names, or the one whose control file it names and which. -/
def walkRel : ℕ → List Path → Option (ℕ × Option ℕ)
  | cg, [] => some (cg, none)
  | cg, name :: rest =>
    if nameMax < name.length then none
    else if rest = [] then (s.nameToFile cg name).map fun f => (cg, some f)
    else (s.child cg name).bind fun c => walkRel c rest

def cgfsResolve (rel : List Path) : Option Node :=
  (s.walkRel root rel).bind fun (cg, f) =>
    if (s cg).live then some (f.elim .dir (.file cg)) else none

def nameOk (name : Path) : Bool :=
  name ≠ [] && name ≠ [dot] && name ≠ [dot, dot] && !name.elem slash && name.length ≤ nameMax

/-- The last slash of a path is its first byte when it has at most one name. -/
def cgfsMkdir (rel : List Path) : Except Err Pool :=
  let name := leaf rel
  if rel.length ≤ 1 then .error .exist
  else if !nameOk name then .error .inval
  else match s.walkRel root rel.dropLast with
  | none => .error .noent
  | some (cg, _) =>
    if !(s cg).live then .error .noent
    else if (s.child cg name).isSome then .error .exist
    else match (range maxCgs).find? fun i => root < i && !(s i).live with
    | none => .error .nospc
    | some i =>
      let s := update s i { live := true, parent := some cg, name }
      .ok (update s cg { s cg with children := i :: (s cg).children })

/-- No task and no controller is in a cgroup that `cgfs_mkdir` has made. -/
def cgfsRmdir (rel : List Path) : Except Err Pool :=
  if rel = [] then .error .inval
  else match s.walkRel root rel with
  | none => .error .noent
  | some (cg, _) =>
    if !(s cg).live then .error .noent
    else if cg = root || (s cg).children ≠ [] then .error .busy
    else
      let s := update s cg { s cg with live := false }
      match (s cg).parent with
      | none => .ok s
      | some p => .ok (update s p { s p with children := (s p).children.erase cg })

/-- `render_path`: a parent's path is copied without its first byte. -/
def renderPath : ℕ → ℕ → Option Path
  | 0, _ => none
  | n + 1, cg =>
    if cg = root then some [slash]
    else match (s cg).parent with
    | none => none
    | some p => (renderPath n p).bind fun path =>
      if pathMax < path.length + 1 + (s cg).name.length + 1 then none
      else some (path.tail ++ slash :: (s cg).name)

end Pool

inductive DirOp where
  | mkdir (rel : List Path)
  | rmdir (rel : List Path)

/-- The pool, and the paths of the directories that there should be. -/
structure Tree where
  pool : Pool
  made : Set (List Path)

namespace Tree

open Pool

variable (t : Tree)

/-- A fresh valid name in a directory, with a slot left. -/
def Fresh (rel : List Path) : Prop :=
  rel ≠ [] ∧ rel.dropLast ∈ t.made ∧ rel ∉ t.made ∧ t.pool.cgfsResolve rel = none ∧
    nameOk (leaf rel) ∧ ∃ i < maxCgs, (t.pool i).live = false

open Classical in
noncomputable def exec : DirOp → Tree
  | .mkdir rel =>
    ⟨(t.pool.cgfsMkdir rel).toOption.getD t.pool, if t.Fresh rel then insert rel t.made else t.made⟩
  | .rmdir rel =>
    ⟨(t.pool.cgfsRmdir rel).toOption.getD t.pool,
      if rel ≠ [] ∧ ∀ name, rel ++ [name] ∉ t.made then t.made \ {rel} else t.made⟩

/-- The paths of the directories resolve to directories, and no other path does; nothing resolves
below a path that is not one; the control files of each act on a cgroup with that path, and every
cgroup that lives is one of them. -/
structure Right : Prop where
  dirs : ∀ rel, t.pool.cgfsResolve rel = some .dir ↔ rel ∈ t.made
  below : ∀ rel, (t.pool.cgfsResolve rel).isSome → rel.dropLast ∈ t.made
  files : ∀ rel ∈ t.made, ∃ cg,
    t.pool.renderPath maxCgs cg = some (slash :: [slash].intercalate rel) ∧
    ∀ name f, t.pool.nameToFile cg name = some f →
      t.pool.cgfsResolve (rel ++ [name]) = some (.file cg f)
  paths : ∀ cg, (t.pool cg).live →
    ∃ rel ∈ t.made, t.pool.renderPath maxCgs cg = some (slash :: [slash].intercalate rel)

/-- No directory should be made, and none is made below a control file. -/
def Sound : DirOp → Prop
  | .mkdir rel => ¬t.Fresh rel ∧
    ∀ cg f, t.pool.walkRel root rel.dropLast = some (cg, some f) → nameOk (leaf rel) = false
  | .rmdir _ => True

/-- The root alone. -/
def boot (ctl : Ctrl → Bool) : Tree :=
  ⟨fun i => if i = root then { live := true, subtreeCtl := ctl } else {}, {[]}⟩

variable {ctl : Ctrl → Bool} {rel : List Path}

theorem length_file : ∀ f ∈ Cgroup.files, f.1.length ≤ nameMax := by decide +kernel

theorem child_boot (cg : ℕ) (name : Path) : (boot ctl).pool.child cg name = none := by
  simp only [child, boot]
  split <;> rfl

theorem walkRel_deep (a b : Path) (rest : List Path) :
    (boot ctl).pool.walkRel root (a :: b :: rest) = none := by
  simp [walkRel, child_boot]

theorem walkRel_root {r : ℕ × Option ℕ} (h : (boot ctl).pool.walkRel root rel = some r) :
    r.1 = root ∧ (rel ≠ [] → r.2 ≠ none) := by
  match rel with
  | [] => simp_all [walkRel, eq_comm]
  | [name] =>
    simp only [walkRel, if_true] at h
    split_ifs at h
    obtain ⟨f, -, rfl⟩ := map_eq_some_iff.mp h
    exact ⟨rfl, fun _ => some_ne_none f⟩
  | a :: b :: rest => simp [walkRel_deep] at h

theorem right_boot : (boot ctl).Right where
  dirs rel := by
    constructor
    · intro h
      obtain ⟨⟨cg, f⟩, hWalk, hNode⟩ := bind_eq_some_iff.mp h
      by_contra hNe
      obtain ⟨f', rfl⟩ := ne_none_iff_exists'.mp ((walkRel_root hWalk).2 hNe)
      dsimp only at hNode
      split_ifs at hNode
      cases hNode
    · rintro rfl
      rfl
  below rel h := by
    obtain ⟨node, h⟩ := isSome_iff_exists.mp h
    obtain ⟨r, hWalk, -⟩ := bind_eq_some_iff.mp h
    rcases rel with _ | ⟨a, _ | ⟨b, rest⟩⟩
    · rfl
    · rfl
    · simp [walkRel_deep] at hWalk
  files rel hRel := by
    obtain rfl := hRel
    refine ⟨root, rfl, fun name f hFile => ?_⟩
    obtain ⟨hf, hName, -⟩ := findIdx?_eq_some_iff_getElem.mp hFile
    have hLength := length_file _ (getElem_mem hf)
    obtain rfl : _ = name := of_decide_eq_true (Bool.and_eq_true_iff.mp hName).2
    simp [cgfsResolve, walkRel, Nat.not_lt.mpr hLength, hFile]
    rfl
  paths cg hLive := by
    have hRoot : cg = root := by
      by_contra hNe
      simp [boot, hNe] at hLive
    exact ⟨[], rfl, hRoot ▸ rfl⟩

theorem dropLast_eq_nil : rel.dropLast = [] ↔ rel.length ≤ 1 := by
  rw [← length_eq_zero_iff, length_dropLast, Nat.sub_eq_zero_iff_le]

theorem exec_rmdir : (boot ctl).exec (.rmdir rel) = boot ctl := by
  have hPool : ((boot ctl).pool.cgfsRmdir rel).toOption = none := by
    unfold cgfsRmdir
    split_ifs
    · rfl
    · split
      · rfl
      · rename_i cg f hWalk
        obtain rfl : cg = root := (walkRel_root hWalk).1
        rfl
  have hMade (hNe : rel ≠ []) : (boot ctl).made \ {rel} = (boot ctl).made :=
    Set.ext fun p => and_iff_left_of_imp fun hp hRel => hNe (hRel.symm.trans hp)
  simp only [exec, hPool, getD_none]
  split_ifs with h
  · rw [hMade h.1]
  · rfl

theorem exec_mkdir (h : (boot ctl).Sound (.mkdir rel)) :
    (boot ctl).exec (.mkdir rel) = boot ctl := by
  have hPool : ((boot ctl).pool.cgfsMkdir rel).toOption = none := by
    unfold cgfsMkdir
    dsimp only
    split_ifs with hLength hName
    · rfl
    · rfl
    · split
      · rfl
      · rename_i cg f hWalk
        have hNe : rel.dropLast ≠ [] := fun hNil => hLength (dropLast_eq_nil.mp hNil)
        obtain ⟨f', rfl⟩ := ne_none_iff_exists'.mp ((walkRel_root hWalk).2 hNe)
        rw [h.2 _ _ hWalk] at hName
        exact absurd rfl hName
  rw [exec, hPool, if_neg h.1, getD_none]

/-- A directory below a control file takes the first free slot, below the root. -/
theorem mkdir_below_file {cg f : ℕ}
    (hWalk : (boot ctl).pool.walkRel root rel.dropLast = some (cg, some f))
    (hName : nameOk (leaf rel)) :
    ∃ s, (boot ctl).pool.cgfsMkdir rel = .ok s ∧ (s 1).live ∧
      s.renderPath maxCgs 1 = some (slash :: leaf rel) := by
  obtain rfl : cg = root := (walkRel_root hWalk).1
  have hLength : ¬rel.length ≤ 1 := by
    intro h
    rw [dropLast_eq_nil.mpr h] at hWalk
    cases hWalk
  have hLive : ((boot ctl).pool root).live := rfl
  have hSlot : (range maxCgs).find? (fun i => root < i && !((boot ctl).pool i).live) = some 1 := by
    simp [find?_range_eq_some, boot, maxCgs, root]
  simp only [cgfsMkdir, hLength, if_false, hName, Bool.not_true, Bool.false_eq_true, hWalk, hLive,
    child_boot, isSome_none, hSlot]
  have hFits : (leaf rel).length ≤ nameMax := of_decide_eq_true (Bool.and_eq_true_iff.mp hName).2
  have hNeed : ¬pathMax < 2 + (leaf rel).length + 1 := by
    unfold pathMax nameMax at *
    omega
  refine ⟨_, rfl, rfl, ?_⟩
  simpa [renderPath, maxCgs, root] using hNeed

theorem not_right (h : ¬(boot ctl).Sound (.mkdir rel)) : ¬((boot ctl).exec (.mkdir rel)).Right := by
  intro hRight
  by_cases hFresh : (boot ctl).Fresh rel
  · have hShort : rel.length ≤ 1 := dropLast_eq_nil.mp hFresh.2.1
    have hDir := (hRight.dirs rel).mpr (by simp [exec, hFresh])
    simp [exec, cgfsMkdir, hShort, Except.toOption, hFresh.2.2.2.1] at hDir
  · simp only [Sound, hFresh, not_false_eq_true, true_and, not_forall, Bool.not_eq_false] at h
    obtain ⟨cg, f, hWalk, hName⟩ := h
    obtain ⟨s, hMkdir, hLive, hPath⟩ := mkdir_below_file hWalk hName
    have hExec : (boot ctl).exec (.mkdir rel) = ⟨s, {[]}⟩ := by
      rw [exec, hMkdir, if_neg hFresh]
      rfl
    rw [hExec] at hRight
    obtain ⟨_, rfl, hRoot⟩ := hRight.paths 1 hLive
    simp_all [nameOk]

/-- A run keeps the directories right exactly as long as no directory should be made and none is
made below a control file. -/
theorem directories_iff (ctl : Ctrl → Bool) (ops : List DirOp) :
    Along (fun t op => (exec t op).Right) exec (boot ctl) ops ↔
    Along Sound exec (boot ctl) ops := by
  refine along_iff (I := fun t => t = boot ctl) ?_ ?_ rfl ops
  · rintro _ (rel | rel) rfl
    · refine ⟨fun h => not_imp_not.mp not_right h, fun h => ?_⟩
      rw [exec_mkdir h]
      exact right_boot
    · refine iff_of_true ?_ trivial
      rw [exec_rmdir]
      exact right_boot
  · rintro _ (rel | rel) rfl h
    · exact exec_mkdir h
    · exact exec_rmdir

/-- `mkdir` of a name in the root does not make a directory. -/
theorem mkdir_refused : ¬Along (fun t op => (exec t op).Right) exec (boot fun _ => true)
    [.mkdir [[97]]] := by
  refine fun h => not_right (fun hSound => hSound.1 ?_) h.1
  exact ⟨by simp, rfl, by simp [boot], by decide +kernel, rfl, 1, by decide, rfl⟩

end Tree

end Gnos.Cgroup
