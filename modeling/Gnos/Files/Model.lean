import Gnos.ProofKit.Ring

/-! The table of open files of `src/fs/vfs.c`, and the pipes that some of the nodes stand for.
`openNode` claims a slot the way that `vfs_file_open`, `vfs_anon_open` and `vfs_socket` do.
Positions, names and sizes are left out. -/

namespace Gnos.Files

open ProofKit List Function

def maxFiles : ℕ := 1024
def maxPipes : ℕ := 16
def pipeCap : ℕ := 4096

def oWronly : BitVec 32 := 1
def oNonblock : BitVec 32 := 0x800

inductive Err where
  | badf | mfile | nomem | intr | pipe
  deriving DecidableEq

/-- What an open file is open on: a pipe, a local socket, one of the netlink or the internet domain,
an anonymous node, or anything with a name.  `release` is whether there is a release hook. -/
inductive Node where
  | pipe (i : ℕ)
  | unix (u : ℕ)
  | socket (netlink : Bool)
  | anon (release : Bool)
  | named (release : Bool)
  deriving DecidableEq

/-- `vfs_file_t`; `obj` is the number of the open that filled the slot in. -/
structure File where
  refs : ℕ := 0
  flags : BitVec 32 := 0
  node : Node := .named false
  obj : ℕ := 0
  deriving DecidableEq

def File.writes (f : File) : Bool := f.flags &&& 3 = oWronly

structure Pipe where
  used : Bool := false
  readers : ℕ := 0
  writers : ℕ := 0
  ring : RingBuf (BitVec 8) := ⟨fun _ => 0, 0, 0, 0⟩

/-- `g_files` and `g_pipes`, the number of opens so far with the node of each, and the opens whose
release hook was called. -/
structure OpenFiles where
  file : ℕ → File
  pipe : ℕ → Pipe
  opened : ℕ
  kind : ℕ → Node
  released : List ℕ

variable (s : OpenFiles) (h : ℕ)

namespace OpenFiles

def setFile (f : File) : OpenFiles := { s with file := update s.file h f }

def setPipe (i : ℕ) (p : Pipe) : OpenFiles := { s with pipe := update s.pipe i p }

theorem setFile_self (f : File) : (s.setFile h f).file h = f := by simp [setFile]

theorem setFile_of_ne {h k : ℕ} (hk : k ≠ h) (f : File) : (s.setFile h f).file k = s.file k := by
  simp [setFile, hk]

theorem setPipe_self (i : ℕ) (p : Pipe) : (s.setPipe i p).pipe i = p := by simp [setPipe]

theorem setPipe_of_ne {i j : ℕ} (hj : j ≠ i) (p : Pipe) : (s.setPipe i p).pipe j = s.pipe j := by
  simp [setPipe, hj]

def get : Option File :=
  if h < maxFiles ∧ 0 < (s.file h).refs then some (s.file h) else none

def slotAlloc : Option ℕ := (range maxFiles).find? fun h => (s.file h).refs = 0

theorem get_eq_some {s : OpenFiles} {h : ℕ} {f : File} (hGet : s.get h = some f) :
    f = s.file h ∧ h < maxFiles ∧ 0 < (s.file h).refs := by
  unfold get at hGet
  split at hGet
  · rename_i hBoth
    exact ⟨(Option.some.inj hGet).symm, hBoth⟩
  · cases hGet

theorem slotAlloc_eq_some {s : OpenFiles} {h : ℕ} (hSlot : s.slotAlloc = some h) :
    h < maxFiles ∧ (s.file h).refs = 0 := by
  unfold slotAlloc at hSlot
  have hFree := find?_some hSlot
  exact ⟨mem_range.mp (mem_of_find?_eq_some hSlot), of_decide_eq_true hFree⟩

def fill (n : Node) (flags : BitVec 32) : OpenFiles :=
  { s.setFile h { refs := 1, flags := flags, node := n, obj := s.opened } with
    opened := s.opened + 1
    kind := update s.kind s.opened n }

/-- The end of `vfs_file_open`, `vfs_anon_open` and `vfs_socket`. -/
def openNode (n : Node) (flags : BitVec 32) : Except Err ℕ × OpenFiles :=
  match s.slotAlloc with
  | none => (.error .mfile, s)
  | some h => (.ok h, s.fill h n flags)

def setfl (nonblock : Bool) : OpenFiles :=
  match s.get h with
  | none => s
  | some f =>
    s.setFile h { f with flags := (f.flags &&& ~~~oNonblock) ||| if nonblock then oNonblock else 0 }

def setRefs (h n : ℕ) : OpenFiles := s.setFile h { s.file h with refs := n }

def freshPipe (p : Pipe) : Pipe :=
  { used := true, readers := 1, writers := 1, ring := ⟨p.ring.buf, 0, 0, 0⟩ }

/-- `vfs_pipe`: the handles of the read end and of the write end. -/
def vfsPipe : Except Err (ℕ × ℕ) × OpenFiles :=
  match (range maxPipes).find? fun i => !(s.pipe i).used with
  | none => (.error .nomem, s)
  | some i =>
    match s.slotAlloc with
    | none => (.error .mfile, s)
    | some rh =>
      -- The first slot is claimed while the second one is looked for.
      match (s.setRefs rh 1).slotAlloc with
      | none => (.error .mfile, (s.setRefs rh 1).setRefs rh 0)
      | some wh =>
        (.ok (rh, wh), (((s.setRefs rh 1).setPipe i (freshPipe (s.pipe i))).fill rh
          (.pipe i) 0).fill wh (.pipe i) oWronly)

/-- When `vfs_pipe` succeeds, two free slots are filled in for a pipe that was not in use. -/
theorem vfsPipe_ok {s s' : OpenFiles} {rh wh : ℕ} (hPipe : s.vfsPipe = (.ok (rh, wh), s')) :
    ∃ i, (s.pipe i).used = false ∧ (rh < maxFiles ∧ (s.file rh).refs = 0) ∧
      (wh < maxFiles ∧ ((s.fill rh (.pipe i) 0).file wh).refs = 0) ∧
      s' = ((s.fill rh (.pipe i) 0).fill wh (.pipe i) oWronly).setPipe i
      (freshPipe (s.pipe i)) := by
  unfold vfsPipe at hPipe
  split at hPipe
  · cases hPipe
  rename_i i hFind
  have hFree := find?_some hFind
  split at hPipe
  · cases hPipe
  rename_i r hr
  split at hPipe
  · cases hPipe
  rename_i w hw
  have hwSlot := slotAlloc_eq_some hw
  obtain ⟨hOk, rfl⟩ := Prod.mk.inj hPipe
  obtain ⟨rfl, rfl⟩ := Prod.mk.inj (Except.ok.inj hOk)
  -- The first slot is taken when the second one is looked for.
  have hne : w ≠ r := by
    rintro rfl
    have hRefs := hwSlot.2
    rw [setRefs, setFile_self] at hRefs
    cases hRefs
  refine ⟨i, by simpa using hFree, slotAlloc_eq_some hr, ⟨hwSlot.1, ?_⟩, ?_⟩
  · have hRefs := hwSlot.2
    rw [setRefs, setFile_of_ne _ hne] at hRefs
    exact (congrArg File.refs (setFile_of_ne s hne _)).trans hRefs
  · simp [setRefs, setFile, setPipe, fill]

theorem vfsPipe_error {s s' : OpenFiles} {e : Err} (hPipe : s.vfsPipe = (.error e, s')) :
    s' = s := by
  unfold vfsPipe at hPipe
  split at hPipe
  · cases hPipe
    rfl
  split at hPipe
  · cases hPipe
    rfl
  rename_i r hr
  split at hPipe
  · cases hPipe
    obtain ⟨-, hFree⟩ := slotAlloc_eq_some hr
    have hFile : update s.file r { s.file r with refs := 0 } = s.file := by
      rw [update_eq_self_iff, ← hFree]
    simp [setRefs, setFile, hFile]
  · cases hPipe

/-- How a pass over a pipe ends; a writer that must wait has written some bytes. -/
inductive Pass where
  | read (bytes : List (BitVec 8))
  | wrote (n : ℕ)
  | err (e : Err)
  | wait (done : ℕ)
  deriving DecidableEq

end OpenFiles

namespace Pipe

/-- One pass of `pipe_node_read`; `intr` is whether a signal is pending. -/
def nodeRead (p : Pipe) (len : ℕ) (intr : Bool) : OpenFiles.Pass × Pipe :=
  if len = 0 then (.read [], p)
  else if p.ring.count = 0 then
    (if p.writers = 0 then .read [] else if intr then .err .intr else .wait 0, p)
  else
    let r := p.ring.popN pipeCap (min len p.ring.count)
    (.read r.1, { p with ring := r.2 })

/-- One pass of `pipe_node_write`, with `done` bytes written before and `bytes` left. -/
def nodeWrite (p : Pipe) (bytes : List (BitVec 8)) (done : ℕ) (intr : Bool) :
    OpenFiles.Pass × Pipe :=
  if bytes = [] then (.wrote done, p)
  else if p.ring.count = pipeCap ∧ 0 < p.readers then
    (if intr then (if 0 < done then .wrote done else .err .intr) else .wait done, p)
  else if p.readers = 0 then (if 0 < done then .wrote done else .err .pipe, p)
  else
    let n := min bytes.length (pipeCap - p.ring.count)
    (if n = bytes.length ∨ intr then .wrote (done + n) else .wait (done + n),
      { p with ring := p.ring.pushAll pipeCap (bytes.take n) })

end Pipe

namespace OpenFiles

/-- `vfs_file_read` on a pipe. -/
def read (h len : ℕ) (intr : Bool) : Pass × OpenFiles :=
  match s.get h with
  | none => (.err .badf, s)
  | some f =>
    if f.writes then (.err .badf, s)
    else
      match f.node with
      | .pipe i => (((s.pipe i).nodeRead len intr).1, s.setPipe i ((s.pipe i).nodeRead len intr).2)
      | _ => (.err .badf, s)

/-- `vfs_file_write` on a pipe. -/
def write (bytes : List (BitVec 8)) (done : ℕ) (intr : Bool) : Pass × OpenFiles :=
  match s.get h with
  | none => (.err .badf, s)
  | some f =>
    if f.flags &&& 3 = 0 then (.err .badf, s)
    else
      match f.node with
      | .pipe i =>
        (((s.pipe i).nodeWrite bytes done intr).1,
          s.setPipe i ((s.pipe i).nodeWrite bytes done intr).2)
      | _ => (.err .badf, s)

def grow (flags : BitVec 32) (p : Pipe) : Pipe :=
  if flags = oWronly then { p with writers := p.writers + 1 }
  else { p with readers := p.readers + 1 }

def shrink (flags : BitVec 32) (p : Pipe) : Pipe :=
  if flags = oWronly then { p with writers := p.writers - 1 }
  else { p with readers := p.readers - 1 }

def ref : OpenFiles :=
  match s.get h with
  | none => s
  | some f =>
    let s := s.setRefs h (f.refs + 1)
    match f.node with
    | .pipe i => s.setPipe i (grow f.flags (s.pipe i))
    | _ => s

def freePipe (p : Pipe) : Pipe :=
  if p.readers = 0 ∧ p.writers = 0 then { p with used := false } else p

/-- `vfs_file_unref` without the close of a local socket: the result says which one is to be
closed. -/
def unref : OpenFiles × Option ℕ :=
  match s.get h with
  | none => (s, none)
  | some f =>
    let s' := s.setRefs h (f.refs - 1)
    match f.node with
    | .pipe i =>
      let p := shrink f.flags (s.pipe i)
      (s'.setPipe i (if f.refs = 1 then freePipe p else p), none)
    | .unix u => (s', if f.refs = 1 then some u else none)
    | .anon true =>
      (if f.refs = 1 then { s' with released := s.released ++ [f.obj] } else s', none)
    | _ => (s', none)

end OpenFiles

end Gnos.Files
