import Gnos.Tmpfs.Contents

/-! Writes through several descriptors of one regular file, on ext2 or on tmpfs: `vfs_file_open` and
`vfs_file_write` of `src/fs/vfs.c` with `ext2_write`.  `O_APPEND` sets the position of a descriptor
when it is opened, and nothing moves it to the end of the file later on. -/

namespace Gnos.Append

open ProofKit List

/-- The regular file: an ext2 inode with blocks of `1024 * 2 ^ k` bytes, or node `n` of the tmpfs
files. -/
inductive Disk where
  | ext2 (k : ℕ) (extents : Bool) (size : ℕ) (byte : ℕ → UInt8)
  | tmpfs (t : Tmpfs.Tracked) (n : ℕ)

/-- What a write finds: the blocks of the file that there are or that can be had, and the frames
that `pmm_alloc_zeroed` has to give. -/
structure Supply where
  bmap : ℕ → Bool
  frames : List ℕ

/-- The loop of `ext2_write` from byte `done` of the buffer on. -/
def ext2Loop (bs : ℕ) (bmap : ℕ → Bool) (off : ℕ) (buf : List UInt8) :
    ℕ → ℕ → (ℕ → UInt8) → ℕ × (ℕ → UInt8)
  | 0, done, byte => (done, byte)
  | fuel + 1, done, byte =>
    if done < buf.length then
      let at_ := (off + done) % 2 ^ 32
      let take := min (bs - at_ % bs) (buf.length - done)
      if bmap (at_ / bs) then
        ext2Loop bs bmap off buf fuel (done + take) fun i =>
          if at_ ≤ i ∧ i < at_ + take then buf.getD (done + (i - at_)) 0 else byte i
      else (done, byte)
    else (done, byte)

namespace Disk

def size : Disk → ℕ
  | ext2 _ _ size _ => size
  | tmpfs t n => (t.s.pool n).size

def byte : Disk → ℕ → UInt8
  | ext2 _ _ _ byte => byte
  | tmpfs t n => t.s.byte n

/-- The `write` operation of the node: how many bytes it has stored, 0 for an error. -/
def write (off : ℕ) (buf : List UInt8) (e : Supply) : Disk → ℕ × Disk
  | ext2 k extents size byte =>
    if 2 ^ 32 ≤ off ∨ buf = [] ∨ extents then (0, ext2 k extents size byte)
    else
      let r := ext2Loop (1024 * 2 ^ k) e.bmap off buf buf.length 0 byte
      (r.1, ext2 k extents (max size ((off + r.1) % 2 ^ 32)) r.2)
  | tmpfs t n =>
    ((t.s.write n off buf e.frames).2.toOption.getD 0, tmpfs (t.exec (.write n off buf e.frames)) n)

/-- What `O_TRUNC` does to a file that is not empty: the blocks of an ext2 file are freed. -/
def truncate : Disk → Disk
  | ext2 k extents _ _ => ext2 k extents 0 fun _ => 0
  | tmpfs t n => tmpfs (t.exec (.truncate n)) n

/-- A tmpfs file is one that sound calls have made. -/
def Fine : Disk → Prop
  | ext2 .. => True
  | tmpfs t _ => t.Reached

/-- What the bytes of a tmpfs file need of a write, whoever makes it. -/
def Careful (off : ℕ) (buf : List UInt8) (e : Supply) : Disk → Prop
  | ext2 .. => True
  | tmpfs t n => t.s.Legal (.write n off buf e.frames) ∧ t.s.Careful (.write n off buf e.frames)

end Disk

/-- `d'` is `d` with the first `n` bytes of `buf` behind it. -/
structure Disk.Appended (d d' : Disk) (buf : List UInt8) (n : ℕ) : Prop where
  size : d'.size = d.size + n
  old : ∀ i < d.size, d'.byte i = d.byte i
  new : ∀ j < n, d'.byte (d.size + j) = buf.getD j 0

/-- `vfs_file_t`. -/
structure VfsFile where
  append : Bool
  writable : Bool
  pos : ℕ

/-- The file and its descriptors, in the order in which they were opened. -/
structure Vfs where
  disk : Disk
  files : List VfsFile

inductive Op where
  | open (append writable trunc : Bool)
  | write (h : ℕ) (buf : List UInt8) (e : Supply)

namespace Vfs

def vfsFileOpen (v : Vfs) (append writable trunc : Bool) : Vfs :=
  let d := if trunc ∧ v.disk.size ≠ 0 then v.disk.truncate else v.disk
  ⟨d, v.files ++ [⟨append, writable, if append then d.size else 0⟩]⟩

/-- The count is negative for the caller from `2 ^ 31` on, and the position stays then. -/
def vfsFileWrite (v : Vfs) (h : ℕ) (buf : List UInt8) (e : Supply) : ℕ × Vfs :=
  match v.files[h]? with
  | none => (0, v)
  | some f =>
    if f.writable then
      let r := v.disk.write f.pos buf e
      (r.1, ⟨r.2, v.files.set h { f with pos := if r.1 < 2 ^ 31 then f.pos + r.1 else f.pos }⟩)
    else (0, v)

def exec (v : Vfs) : Op → Vfs
  | .open append writable trunc => v.vfsFileOpen append writable trunc
  | .write h buf e => (v.vfsFileWrite h buf e).2

/-- What a write through a descriptor with `O_APPEND` must do. -/
def Right (v : Vfs) : Op → Prop
  | .open .. => True
  | .write h buf e => ∀ f, v.files[h]? = some f → f.append →
    v.disk.Appended (v.vfsFileWrite h buf e).2.disk buf (v.vfsFileWrite h buf e).1

/-- The condition on one step: the position of a descriptor with `O_APPEND` is the end of the file
when it is written to, and the write ends below `2 ^ 32`. -/
def Sound (v : Vfs) : Op → Prop
  | .open .. => True
  | .write h buf e => ∀ f, v.files[h]? = some f → f.writable →
    v.disk.Careful f.pos buf e ∧
    (f.append → f.pos = v.disk.size ∧ v.disk.size + buf.length < 2 ^ 32)

end Vfs

/-- The loop stores a front part of the buffer from `off` on. -/
theorem ext2Loop_spec {bs off done : ℕ} (bmap : ℕ → Bool) {buf : List UInt8} (hbs : 0 < bs)
    (hWrap : off + buf.length < 2 ^ 32) (fuel : ℕ) (byte : ℕ → UInt8) (hDone : done ≤ buf.length) :
    let r := ext2Loop bs bmap off buf fuel done byte
    done ≤ r.1 ∧ r.1 ≤ buf.length ∧ (∀ i, i < off + done ∨ off + r.1 ≤ i → r.2 i = byte i) ∧
      ∀ j, done ≤ j → j < r.1 → r.2 (off + j) = buf.getD j 0 := by
  induction fuel generalizing done byte with
  | zero => exact ⟨le_refl _, hDone, fun _ _ => rfl, fun j hj hjr => absurd hj (not_le.mpr hjr)⟩
  | succ fuel ih =>
    have hMod : (off + done) % 2 ^ 32 = off + done := Nat.mod_eq_of_lt (by omega)
    unfold ext2Loop
    simp only [hMod]
    have hPart := Nat.mod_lt (off + done) hbs
    generalize hTake : min (bs - (off + done) % bs) (buf.length - done) = take
    split_ifs with hMore hBlock
    · obtain ⟨hLow, hHigh, hOld, hNew⟩ :=
        ih (fun i => if off + done ≤ i ∧ i < off + done + take then
        buf.getD (done + (i - (off + done))) 0 else byte i) (show done + take ≤ buf.length by omega)
      refine ⟨by omega, hHigh, fun i hi => ?_, fun j hj hjr => ?_⟩
      · rw [hOld i (by omega), if_neg (by omega)]
      · rcases lt_or_ge j (done + take) with hIn | hOut
        · rw [hOld _ (by omega), if_pos (by omega)]
          congr 1
          omega
        · exact hNew j hOut hjr
    · exact ⟨le_refl _, hDone, fun _ _ => rfl, fun j hj hjr => absurd hj (not_le.mpr hjr)⟩
    · exact ⟨le_refl _, hDone, fun _ _ => rfl, fun j hj hjr => absurd hj (not_le.mpr hjr)⟩

namespace Disk

variable {d : Disk} {off : ℕ} {buf : List UInt8} {e : Supply}

theorem Appended.refl (d : Disk) (buf : List UInt8) : Appended d d buf 0 :=
  ⟨rfl, fun _ _ => rfl, fun _ hj => absurd hj (Nat.not_lt_zero _)⟩

theorem appended_ext2 (k : ℕ) (extents : Bool) {size : ℕ} (byte : ℕ → UInt8)
    (hWrap : size + buf.length < 2 ^ 32) :
    Appended (.ext2 k extents size byte) ((Disk.ext2 k extents size byte).write size buf e).2 buf
      ((Disk.ext2 k extents size byte).write size buf e).1 := by
  unfold write
  dsimp only
  split_ifs
  · exact .refl _ _
  · obtain ⟨-, hHigh, hOld, hNew⟩ := ext2Loop_spec e.bmap
      (Nat.mul_pos (show 0 < 1024 by decide) (Nat.two_pow_pos k)) hWrap buf.length byte
      (Nat.zero_le _)
    refine ⟨?_, fun i hi => hOld i (.inl hi), fun j hj => hNew j (Nat.zero_le j) hj⟩
    show max size _ = size + _
    rw [Nat.mod_eq_of_lt (by omega)]
    exact Nat.max_eq_right (Nat.le_add_right _ _)

theorem appended_tmpfs {t : Tmpfs.Tracked} {n : ℕ} (ht : t.Reached) (hOff : off = (t.s.pool n).size)
    (hLegal : t.s.Legal (.write n off buf e.frames))
    (hCareful : t.s.Careful (.write n off buf e.frames)) :
    Appended (.tmpfs t n) ((Disk.tmpfs t n).write off buf e).2 buf
    ((Disk.tmpfs t n).write off buf e).1 := by
  have hBefore := ht.matches_files
  have hAfter := hBefore.exec hLegal hCareful
  rcases t.s.write_cases n off buf e.frames with ⟨x, hError⟩ | ⟨s, hOk⟩
  · simp only [write, Tmpfs.Tracked.exec, Tmpfs.Tracked.note, hError]
    exact .refl _ _
  · have hFile : (t.exec (.write n off buf e.frames)).f n = (t.f n).write off buf := by
      simp [Tmpfs.Tracked.exec, Tmpfs.Tracked.note, hOk]
    have hSize : ((t.f n).write off buf).size = off + buf.length := by
      simp only [Tmpfs.File.write, hBefore.size n, ← hOff]
      split
      · rw [‹buf = []›]
        rfl
      · exact Nat.max_eq_right (Nat.le_add_right _ _)
    have hByte : ∀ i < off + buf.length,
        (t.exec (.write n off buf e.frames)).s.byte n i = ((t.f n).write off buf).byte i := by
      intro i hi
      rw [hAfter.bytes n i (by rw [← hAfter.size, hFile, hSize]; exact hi), hFile]
    have hCount : ((tmpfs t n).write off buf e).1 = buf.length := by
      simp [write, hOk, Except.toOption]
    rw [hCount]
    refine ⟨?_, fun i hi => ?_, fun j hj => ?_⟩
    · show _ = (t.s.pool n).size + buf.length
      exact (hAfter.size n).symm.trans ((congrArg Tmpfs.File.size hFile).trans (hOff ▸ hSize))
    · rw [size, ← hOff] at hi
      refine (hByte i (by omega)).trans ?_
      exact (if_neg (by omega)).trans (hBefore.bytes n i (hOff ▸ hi)).symm
    · rw [size, ← hOff]
      refine (hByte _ (by omega)).trans ((if_pos (by omega)).trans ?_)
      rw [Nat.add_sub_cancel_left]

theorem Fine.truncate (hd : d.Fine) : d.truncate.Fine := by
  cases d with
  | ext2 => trivial
  | tmpfs t n => exact Reaches.step hd ⟨trivial, trivial⟩

section

variable (hd : d.Fine) (hCareful : d.Careful off buf e)
include hd hCareful

theorem Fine.write : (d.write off buf e).2.Fine := by
  cases d with
  | ext2 =>
    unfold write
    dsimp only
    split <;> trivial
  | tmpfs t n => exact Reaches.step hd hCareful

theorem Fine.appended (hEnd : off = d.size) (hWrap : d.size + buf.length < 2 ^ 32) :
    d.Appended (d.write off buf e).2 buf (d.write off buf e).1 := by
  cases d with
  | ext2 k extents size byte =>
    rw [hEnd]
    exact appended_ext2 k extents byte hWrap
  | tmpfs t n => exact appended_tmpfs hd hEnd hCareful.1 hCareful.2

end

end Disk

namespace Vfs

variable {v : Vfs}

/-- A sound step does what it must, and leaves a fine file. -/
theorem step (hv : v.disk.Fine) {op : Op} (hSound : v.Sound op) :
    v.Right op ∧ (v.exec op).disk.Fine := by
  cases op with
  | «open» append writable trunc =>
    refine ⟨trivial, ?_⟩
    unfold exec vfsFileOpen
    dsimp only
    split
    · exact hv.truncate
    · exact hv
  | write h buf e =>
    cases hf : v.files[h]? with
    | none =>
      simp only [Right, exec, vfsFileWrite, hf]
      exact ⟨nofun, hv⟩
    | some f =>
      simp only [Right, exec, vfsFileWrite, hf]
      split
      · obtain ⟨hCareful, hAppend⟩ := hSound f hf ‹_›
        refine ⟨fun g hg hg' => ?_, hv.write hCareful⟩
        obtain rfl := Option.some.inj hg
        exact hv.appended hCareful (hAppend hg').1 (hAppend hg').2
      · exact ⟨fun _ _ _ => .refl _ _, hv⟩

/-- In every run of sound steps each write through a descriptor with `O_APPEND` stores its bytes
behind the file and changes nothing before them. -/
theorem appends_never_overwrite (v : Vfs) (hv : v.disk.Fine) (ops : List Op)
    (hSound : Along Sound exec v ops) : Along Right exec v ops := by
  induction ops generalizing v with
  | nil => trivial
  | cons op ops ih =>
    obtain ⟨hRight, hFine⟩ := step hv hSound.1
    exact ⟨hRight, ih _ hFine hSound.2⟩

def allBlocks : Supply := ⟨fun _ => true, []⟩

def emptyFile : Vfs := ⟨.ext2 0 false 0 fun _ => 0, []⟩

theorem appends_never_overwrite_twice :
    Along Right exec emptyFile
      [.open true true false, .write 0 [1, 2] allBlocks, .write 0 [3] allBlocks] :=
  appends_never_overwrite emptyFile trivial _ (by
    simp [Along, Sound, exec, emptyFile, vfsFileOpen, vfsFileWrite, Disk.size, Disk.Careful,
      Disk.write, ext2Loop, allBlocks])

/-- Two descriptors of an empty ext2 file, the first with `O_APPEND`: what the second one has
written is overwritten by the first one. -/
theorem append_overwrites : ∃ ops : List Op,
    ops = [.open true true false, .open false true false, .write 1 [1, 2] allBlocks,
      .write 0 [3] allBlocks] ∧ ¬Along Right exec emptyFile ops ∧
    (ops.foldl exec emptyFile).disk.size = 2 ∧ (ops.foldl exec emptyFile).disk.byte 0 = 3 ∧
      (ops.foldl exec emptyFile).disk.byte 1 = 2 := by
  refine ⟨_, rfl, ?_, by decide +kernel, by decide +kernel, by decide +kernel⟩
  rintro ⟨-, -, -, hLast, -⟩
  have hKept := (hLast _ rfl rfl).old 0 (by decide +kernel)
  exact absurd hKept (by decide +kernel)

end Vfs

end Gnos.Append
