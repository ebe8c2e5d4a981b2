import Gnos.Files.Model
import Gnos.ProofKit.Runs
import Gnos.ProofKit.Tally

/-! Pipes count the references on their two ends.  `dup`, `fork` and the passing of a descriptor are
a `vfs_file_ref` of a handle each, and `close`, `execve` and the end of a process a
`vfs_file_unref`.  A call that sleeps keeps its descriptor, and its next pass is another read or
write. -/

namespace Gnos.Files

open ProofKit Function OpenFiles.Pass OpenFiles List Option

inductive PipeOp where
  | pipe
  /-- An open of anything else. -/
  | openOther (n : Node) (flags : BitVec 32)
  | ref (h : ℕ)
  | unref (h : ℕ)
  | setfl (h : ℕ) (nonblock : Bool)
  | read (h len : ℕ) (intr : Bool)
  | write (h : ℕ) (bytes : List (BitVec 8)) (done : ℕ) (intr : Bool)

def OpenFiles.Pass.bytes : OpenFiles.Pass → List (BitVec 8)
  | .read bs => bs
  | _ => []

def OpenFiles.Pass.put (done : ℕ) : OpenFiles.Pass → ℕ
  | .wrote n => n - done
  | .wait n => n - done
  | _ => 0

/-- The table, and what was written to every pipe and read from it since it was made. -/
structure PipeTrack where
  s : OpenFiles
  wrote : ℕ → List (BitVec 8)
  got : ℕ → List (BitVec 8)

def Node.pipe? : Node → Option ℕ
  | .pipe i => some i
  | _ => none

def OpenFiles.pipeOf (s : OpenFiles) (h : ℕ) : Option ℕ := (s.get h).bind (·.node.pipe?)

def note (log : ℕ → List (BitVec 8)) (i : Option ℕ) (bytes : List (BitVec 8)) :
    ℕ → List (BitVec 8) :=
  match i with
  | some i => Function.update log i (log i ++ bytes)
  | none => log

namespace PipeTrack

def begin_ (t : PipeTrack) (s : OpenFiles) (i : Option ℕ) : PipeTrack :=
  match i with
  | some i => ⟨s, Function.update t.wrote i [], Function.update t.got i []⟩
  | none => ⟨s, t.wrote, t.got⟩

def exec (t : PipeTrack) : PipeOp → PipeTrack
  | .pipe =>
    match t.s.vfsPipe with
    | (.ok (rh, _), s) => t.begin_ s (s.pipeOf rh)
    | (.error _, s) => { t with s := s }
  | .openOther n flags => if n.pipe?.isSome then t else { t with s := (t.s.openNode n flags).2 }
  | .ref h => { t with s := t.s.ref h }
  | .unref h => { t with s := (t.s.unref h).1 }
  | .setfl h nonblock => { t with s := t.s.setfl h nonblock }
  | .read h len intr =>
    ⟨(t.s.read h len intr).2, t.wrote, note t.got (t.s.pipeOf h) (t.s.read h len intr).1.bytes⟩
  | .write h bytes done intr =>
    ⟨(t.s.write h bytes done intr).2,
      note t.wrote (t.s.pipeOf h) (bytes.take ((t.s.write h bytes done intr).1.put done)), t.got⟩

end PipeTrack

def weight (i : ℕ) (w : Bool) (f : File) : ℕ :=
  if f.node = .pipe i ∧ f.writes = w then f.refs else 0

/-- The references on one end of a pipe: the write end for `true`. -/
def OpenFiles.refsOn (s : OpenFiles) (i : ℕ) (w : Bool) : ℕ :=
  ∑ h ∈ Finset.range maxFiles, weight i w (s.file h)

/-- The counts are those of references, a pipe is in use while it has one, what was written is what
was read and what is left, and end of file and broken pipes are told from them. -/
structure PipeTrack.Right (t : PipeTrack) : Prop where
  readers : ∀ i, (t.s.pipe i).used → (t.s.pipe i).readers = t.s.refsOn i false
  writers : ∀ i, (t.s.pipe i).used → (t.s.pipe i).writers = t.s.refsOn i true
  used : ∀ i, (t.s.pipe i).used ↔ 0 < t.s.refsOn i false + t.s.refsOn i true
  data : ∀ i, (t.s.pipe i).used → t.wrote i = t.got i ++ (t.s.pipe i).ring.contents pipeCap
  eof : ∀ h i len intr, t.s.pipeOf h = some i → 0 < len → (t.s.read h len intr).1 = .read [] →
    t.s.refsOn i true = 0 ∧ (t.s.pipe i).ring.contents pipeCap = []
  broken : ∀ h i bytes done intr, t.s.pipeOf h = some i →
    (t.s.write h bytes done intr).1 = .err .pipe → t.s.refsOn i false = 0

/-- The flags of a write end are `O_WRONLY` and nothing else. -/
def OpenFiles.Told (s : OpenFiles) (h : ℕ) : Prop :=
  (s.pipeOf h).isSome → (s.file h).writes → (s.file h).flags = oWronly

/-- The condition on one step: no reference is taken or dropped on a write end with `O_NONBLOCK`. -/
def PipeTrack.Sound (t : PipeTrack) : PipeOp → Prop
  | .ref h => t.s.Told h
  | .unref h => t.s.Told h
  | _ => True

def PipeTrack.boot : PipeTrack :=
  ⟨⟨fun _ => {}, fun _ => {}, 0, fun _ => .named false, []⟩, fun _ => [], fun _ => []⟩

namespace OpenFiles

variable {s s' : OpenFiles} {h i : ℕ} {w : Bool} {f : File}

theorem pipeOf_eq_some (hPipe : s.pipeOf h = some i) :
    s.get h = some (s.file h) ∧ (s.file h).node = .pipe i := by
  obtain ⟨f, hGet, hNode⟩ := bind_eq_some_iff.mp hPipe
  obtain ⟨rfl, -⟩ := get_eq_some hGet
  refine ⟨hGet, ?_⟩
  cases hKind : (s.file h).node with
  | pipe j =>
    rw [hKind] at hNode
    rw [some.inj hNode]
  | _ => rw [hKind] at hNode; cases hNode

theorem pipeOf_of_node (hGet : s.get h = some f) (hNode : f.node = .pipe i) :
    s.pipeOf h = some i := by
  unfold pipeOf
  rw [hGet, bind_some, hNode]
  rfl

theorem weight_of_free (hFree : f.refs = 0) (i : ℕ) (w : Bool) : weight i w f = 0 := by
  unfold weight
  rw [hFree]
  exact ite_self 0

section

variable (hh : h < maxFiles)
include hh

theorem refsOn_setFile (f : File) (i : ℕ) (w : Bool) :
    (s.setFile h f).refsOn i w + weight i w (s.file h) = s.refsOn i w + weight i w f :=
  sum_update (Finset.mem_range.mpr hh) (weight i w) s.file f

theorem refsOn_setFile_same (hWeight : ∀ i w, weight i w f = weight i w (s.file h)) (i : ℕ)
    (w : Bool) : (s.setFile h f).refsOn i w = s.refsOn i w := by
  have hSum := refsOn_setFile hh f i w (s := s)
  rw [hWeight] at hSum
  omega

theorem weight_le_refsOn (i : ℕ) (w : Bool) : weight i w (s.file h) ≤ s.refsOn i w :=
  Finset.single_le_sum (f := fun h => weight i w (s.file h)) (fun _ _ => Nat.zero_le _)
    (Finset.mem_range.mpr hh)

theorem refsOn_setRefs (n j : ℕ) (w : Bool) : (s.setRefs h n).refsOn j w + weight j w (s.file h) =
      s.refsOn j w + if (s.file h).node = .pipe j ∧ (s.file h).writes = w then n else 0 :=
  refsOn_setFile hh _ j w

theorem refsOn_setRefs_other (hNode : ∀ i, (s.file h).node ≠ .pipe i) (n j : ℕ) (w : Bool) :
    (s.setRefs h n).refsOn j w = s.refsOn j w := by
  have hSum := refsOn_setRefs (s := s) hh n j w
  rw [weight, if_neg fun hBoth => hNode j hBoth.1, if_neg fun hBoth => hNode j hBoth.1] at hSum
  exact Nat.add_right_cancel hSum

end

structure Balanced (s : OpenFiles) : Prop where
  readers : ∀ i, (s.pipe i).used → (s.pipe i).readers = s.refsOn i false
  writers : ∀ i, (s.pipe i).used → (s.pipe i).writers = s.refsOn i true
  used : ∀ i, (s.pipe i).used ↔ 0 < s.refsOn i false + s.refsOn i true

theorem writes_of_wronly (hFlags : f.flags = oWronly) : f.writes := by
  unfold File.writes
  rw [hFlags]
  rfl

theorem refsOn_setRefs_pipe (hPipe : s.pipeOf h = some i) (n : ℕ) :
    (∀ j w, j ≠ i → (s.setRefs h n).refsOn j w = s.refsOn j w) ∧
      (s.setRefs h n).refsOn i (s.file h).writes + (s.file h).refs =
      s.refsOn i (s.file h).writes + n ∧
      (s.setRefs h n).refsOn i (!(s.file h).writes) = s.refsOn i !(s.file h).writes := by
  obtain ⟨hGet, hNode⟩ := pipeOf_eq_some hPipe
  obtain ⟨-, hh, -⟩ := get_eq_some hGet
  have hMiss : ∀ j w, ¬((s.file h).node = .pipe j ∧ (s.file h).writes = w) →
      (s.setRefs h n).refsOn j w = s.refsOn j w := fun j w hOff => by
    have hSum := refsOn_setRefs (s := s) hh n j w
    unfold weight at hSum
    rw [if_neg hOff, if_neg hOff] at hSum
    exact Nat.add_right_cancel hSum
  refine ⟨fun j w hj => hMiss j w fun hBoth => ?_, ?_, hMiss i _ fun hBoth => ?_⟩
  · rw [hNode] at hBoth
    exact hj (Node.pipe.inj hBoth.1).symm
  · have hSum := refsOn_setRefs (s := s) hh n i (s.file h).writes
    unfold weight at hSum
    rw [if_pos ⟨hNode, rfl⟩, if_pos ⟨hNode, rfl⟩] at hSum
    exact hSum
  · cases hw : (s.file h).writes <;> rw [hw] at hBoth <;> cases hBoth.2

section

variable (hPipe : s.pipeOf h = none)
include hPipe

theorem pipeOf_eq_none : s.get h = none ∨
      s.get h = some (s.file h) ∧ h < maxFiles ∧ ∀ i, (s.file h).node ≠ .pipe i := by
  cases hGet : s.get h with
  | none => exact .inl rfl
  | some f =>
    obtain ⟨rfl, hh, -⟩ := get_eq_some hGet
    refine .inr ⟨rfl, hh, fun i hNode => ?_⟩
    rw [pipeOf_of_node hGet hNode] at hPipe
    cases hPipe

theorem ref_of_none : (∀ i w, (s.ref h).refsOn i w = s.refsOn i w) ∧ (s.ref h).pipe = s.pipe := by
  unfold ref
  rcases pipeOf_eq_none hPipe with hGet | ⟨hGet, hh, hNode⟩
  · rw [hGet]
    exact ⟨fun _ _ => rfl, rfl⟩
  · rw [hGet]
    dsimp only
    split
    · exact absurd ‹_› (hNode _)
    · exact ⟨refsOn_setRefs_other hh hNode _, rfl⟩

theorem unref_of_none : (∀ i w, (s.unref h).1.refsOn i w = s.refsOn i w) ∧
    (s.unref h).1.pipe = s.pipe := by
  unfold unref
  rcases pipeOf_eq_none hPipe with hGet | ⟨hGet, hh, hNode⟩
  · rw [hGet]
    exact ⟨fun _ _ => rfl, rfl⟩
  · have hRefs := refsOn_setRefs_other hh hNode ((s.file h).refs - 1)
    rw [hGet]
    dsimp only
    split
    · exact absurd ‹_› (hNode _)
    · exact ⟨hRefs, rfl⟩
    · split
      · exact ⟨hRefs, rfl⟩
      · exact ⟨hRefs, rfl⟩
    · exact ⟨hRefs, rfl⟩

end

section

variable (hTold : s.Told h) (hPipe : s.pipeOf h = some i) (p : Pipe)
include hTold hPipe

theorem grow_told :
    (grow (s.file h).flags p).readers = p.readers + (if (s.file h).writes = false then 1 else 0) ∧
      (grow (s.file h).flags p).writers = p.writers + (if (s.file h).writes then 1 else 0) ∧
      (grow (s.file h).flags p).used = p.used := by
  unfold grow
  split
  · rw [writes_of_wronly ‹_›]
    exact ⟨rfl, rfl, rfl⟩
  · cases hEnd : (s.file h).writes with
    | false => exact ⟨rfl, rfl, rfl⟩
    | true => exact absurd (hTold (by rw [hPipe]; rfl) hEnd) ‹_›

theorem shrink_told :
    (shrink (s.file h).flags p).readers = p.readers - (if (s.file h).writes = false then 1 else 0) ∧
      (shrink (s.file h).flags p).writers = p.writers - (if (s.file h).writes then 1 else 0) := by
  unfold shrink
  split
  · rw [writes_of_wronly ‹_›]
    exact ⟨rfl, rfl⟩
  · cases hEnd : (s.file h).writes with
    | false => exact ⟨rfl, rfl⟩
    | true => exact absurd (hTold (by rw [hPipe]; rfl) hEnd) ‹_›

end

def drop (f : File) (p : Pipe) : Pipe :=
  if f.refs = 1 then freePipe (shrink f.flags p) else shrink f.flags p

theorem shrink_used (flags : BitVec 32) (p : Pipe) :
    (shrink flags p).used = p.used ∧ (shrink flags p).ring = p.ring := by
  unfold shrink
  split <;> exact ⟨rfl, rfl⟩

theorem drop_counts (f : File) (p : Pipe) :
    (drop f p).readers = (shrink f.flags p).readers ∧
    (drop f p).writers = (shrink f.flags p).writers ∧
      (drop f p).ring = p.ring ∧ ((drop f p).used ↔ p.used ∧
        (f.refs = 1 → ¬((shrink f.flags p).readers = 0 ∧ (shrink f.flags p).writers = 0))) := by
  obtain ⟨hUsed, hRing⟩ := shrink_used f.flags p
  unfold drop freePipe
  split
  · rename_i hLast
    split_ifs with hEmpty
    · exact ⟨rfl, rfl, hRing, ⟨fun hU => (by cases hU), fun hU => absurd hEmpty (hU.2 hLast)⟩⟩
    · exact ⟨rfl, rfl, hRing, ⟨fun hU => ⟨hUsed ▸ hU, fun _ => hEmpty⟩, fun hU => hUsed.trans hU.1⟩⟩
  · rename_i hMore
    exact ⟨rfl, rfl, hRing, ⟨fun hU => ⟨hUsed ▸ hU, fun hLast => absurd hLast hMore⟩,
      fun hU => hUsed.trans hU.1⟩⟩

theorem refsOn_setPipe (p : Pipe) (j : ℕ) (w : Bool) : (s.setPipe i p).refsOn j w = s.refsOn j w :=
  rfl

theorem refsOn_fill (hSlot : h < maxFiles ∧ (s.file h).refs = 0) (n : Node)
    (flags : BitVec 32) (i : ℕ) (w : Bool) : (s.fill h n flags).refsOn i w =
      s.refsOn i w + if n = .pipe i ∧ decide (flags &&& 3 = oWronly) = w then 1 else 0 := by
  obtain ⟨hh, hFree⟩ := hSlot
  have hSum := refsOn_setFile (s := s) hh
    { refs := 1, flags := flags, node := n, obj := s.opened } i w
  rw [weight_of_free hFree, Nat.add_zero] at hSum
  exact hSum

theorem accmode_setfl (flags : BitVec 32) (nonblock : Bool) :
    ((flags &&& ~~~oNonblock) ||| if nonblock then oNonblock else 0) &&& 3 = flags &&& 3 := by
  have hDistrib : ∀ a b c : BitVec 32, (a ||| b) &&& c = a &&& c ||| b &&& c := fun a b c => by
    ext i hi
    simp [Bool.and_or_distrib_right]
  have hMask : ~~~oNonblock &&& 3 = 3 := rfl
  have hBit : (if nonblock then oNonblock else 0) &&& 3 = 0 := by cases nonblock <;> rfl
  rw [hDistrib, BitVec.and_assoc, hMask, hBit]
  exact BitVec.or_zero

section

variable (hs : s.Balanced)
include hs

theorem Balanced.congr (hRefs : ∀ i w, s'.refsOn i w = s.refsOn i w) (hPipe : s'.pipe = s.pipe) :
    s'.Balanced := by
  constructor <;> simp only [hPipe, hRefs]
  · exact hs.readers
  · exact hs.writers
  · exact hs.used

theorem Balanced.setPipe {p : Pipe} (hRefs : ∀ j w, j ≠ i → s'.refsOn j w = s.refsOn j w)
    (hPipe : s'.pipe = update s.pipe i p) (hReaders : p.used → p.readers = s'.refsOn i false)
    (hWriters : p.used → p.writers = s'.refsOn i true)
    (hUsed : p.used ↔ 0 < s'.refsOn i false + s'.refsOn i true) : s'.Balanced := by
  constructor <;> intro j <;> rw [hPipe] <;> rcases eq_or_ne j i with rfl | hj
  · rwa [update_self]
  · rw [update_of_ne hj, hRefs j false hj]
    exact hs.readers j
  · rwa [update_self]
  · rw [update_of_ne hj, hRefs j true hj]
    exact hs.writers j
  · rwa [update_self]
  · rw [update_of_ne hj, hRefs j false hj, hRefs j true hj]
    exact hs.used j

theorem Balanced.used_of_pipeOf (hPipe : s.pipeOf h = some i) :
    (s.pipe i).used ∧ weight i (s.file h).writes (s.file h) = (s.file h).refs ∧
      0 < (s.file h).refs ∧ h < maxFiles := by
  obtain ⟨hGet, hNode⟩ := pipeOf_eq_some hPipe
  obtain ⟨-, hh, hPos⟩ := get_eq_some hGet
  have hWeight : weight i (s.file h).writes (s.file h) = (s.file h).refs := if_pos ⟨hNode, rfl⟩
  have hLe := weight_le_refsOn (s := s) hh i (s.file h).writes
  refine ⟨(hs.used i).mpr ?_, hWeight, hPos, hh⟩
  cases hEnd : (s.file h).writes <;> rw [hEnd] at hWeight hLe <;> omega

theorem Balanced.setfl (h : ℕ) (nonblock : Bool) : (s.setfl h nonblock).Balanced := by
  unfold OpenFiles.setfl
  split
  · exact hs
  · obtain ⟨rfl, hh, -⟩ := get_eq_some ‹_›
    refine hs.congr (refsOn_setFile_same hh fun i w => ?_) rfl
    unfold weight File.writes
    rw [accmode_setfl]

theorem Balanced.openNode {n : Node} (hn : n.pipe?.isSome = false) (flags : BitVec 32) :
    (s.openNode n flags).2.Balanced := by
  unfold OpenFiles.openNode
  split
  · exact hs
  · refine hs.congr (fun i w => ?_) rfl
    rw [refsOn_fill (slotAlloc_eq_some ‹_›), if_neg, Nat.add_zero]
    rintro ⟨rfl, -⟩
    cases hn

end

theorem ref_of_pipe (hPipe : s.pipeOf h = some i) :
    s.ref h = (s.setRefs h ((s.file h).refs + 1)).setPipe i (grow (s.file h).flags (s.pipe i)) := by
  obtain ⟨hGet, hNode⟩ := pipeOf_eq_some hPipe
  unfold ref
  rw [hGet]
  dsimp only
  rw [hNode]
  rfl

theorem unref_of_pipe (hPipe : s.pipeOf h = some i) :
    (s.unref h).1 = (s.setRefs h ((s.file h).refs - 1)).setPipe i (drop (s.file h) (s.pipe i)) := by
  obtain ⟨hGet, hNode⟩ := pipeOf_eq_some hPipe
  unfold unref
  rw [hGet]
  dsimp only
  rw [hNode]
  rfl

theorem vfsPipe_new {rh wh : ℕ} (hPipe : s.vfsPipe = (.ok (rh, wh), s')) :
    ∃ i, (s.pipe i).used = false ∧ s'.pipeOf rh = some i ∧
      s'.pipe = (s.setPipe i (freshPipe (s.pipe i))).pipe ∧
      ∀ j w, s'.refsOn j w = s.refsOn j w + if j = i then 1 else 0 := by
  obtain ⟨i, hFree, hrSlot, hwSlot, rfl⟩ := vfsPipe_ok hPipe
  refine ⟨i, hFree, ?_, rfl, fun j e => ?_⟩
  · have hne : rh ≠ wh := by
      rintro rfl
      have hRefs := hwSlot.2
      rw [fill, setFile_self] at hRefs
      cases hRefs
    have hFile := (setFile_of_ne (s.fill rh (.pipe i) 0) hne
      { refs := 1, flags := oWronly, node := .pipe i, obj := s.opened + 1 }).trans
      (setFile_self s rh _)
    have hRefs := congrArg File.refs hFile
    have hNode := congrArg File.node hFile
    exact pipeOf_of_node (if_pos ⟨hrSlot.1, Nat.lt_of_lt_of_eq Nat.one_pos hRefs.symm⟩) hNode
  · rw [refsOn_setPipe, refsOn_fill hwSlot, refsOn_fill hrSlot, Nat.add_assoc]
    refine congrArg (s.refsOn j e + ·) ?_
    rcases eq_or_ne j i with rfl | hj
    · cases e <;> simp [oWronly]
    · have hNode : Node.pipe i ≠ .pipe j := fun hEq => hj (Node.pipe.inj hEq).symm
      rw [if_neg fun hBoth => hNode hBoth.1, if_neg fun hBoth => hNode hBoth.1, if_neg hj]

section

variable (hs : s.Balanced)
include hs

theorem Balanced.ref (hTold : s.Told h) : (s.ref h).Balanced := by
  cases hPipe : s.pipeOf h with
  | none =>
    obtain ⟨hRefs, hSame⟩ := ref_of_none hPipe
    exact hs.congr hRefs hSame
  | some i =>
    have hUsed := (hs.used_of_pipeOf hPipe).1
    obtain ⟨hR, hW, hU⟩ := grow_told hTold hPipe (s.pipe i)
    obtain ⟨hOther, hThis, hThat⟩ := refsOn_setRefs_pipe hPipe ((s.file h).refs + 1)
    have hReaders := hs.readers i hUsed
    have hWriters := hs.writers i hUsed
    rw [ref_of_pipe hPipe]
    cases hEnd : (s.file h).writes <;> rw [hEnd] at hThis hThat hR hW <;>
      simp only [Bool.not_true, Bool.not_false, if_true, if_false,
        reduceCtorEq] at hThis hThat hR hW <;>
      refine hs.setPipe hOther rfl (fun _ => ?_) (fun _ => ?_) (iff_of_true (hU.trans hUsed) ?_) <;>
      simp only [refsOn_setPipe] <;>
      omega

theorem Balanced.told_of_ref (hAfter : (s.ref h).Balanced) : s.Told h := by
  intro hSome hEnd
  obtain ⟨i, hPipe⟩ := isSome_iff_exists.mp hSome
  by_contra hFlags
  have hUsed := (hs.used_of_pipeOf hPipe).1
  obtain ⟨-, hThis, -⟩ := refsOn_setRefs_pipe hPipe ((s.file h).refs + 1)
  have hWriters := hAfter.writers i
  have hGrow : grow (s.file h).flags (s.pipe i) =
      { s.pipe i with readers := (s.pipe i).readers + 1 } :=
    if_neg hFlags
  rw [ref_of_pipe hPipe, setPipe_self, hGrow] at hWriters
  have hCount : (s.pipe i).writers = (s.setRefs h ((s.file h).refs + 1)).refsOn i true :=
    hWriters hUsed
  rw [hs.writers i hUsed] at hCount
  rw [hEnd] at hThis
  omega

theorem Balanced.unref (hTold : s.Told h) : (s.unref h).1.Balanced := by
  cases hPipe : s.pipeOf h with
  | none =>
    obtain ⟨hRefs, hSame⟩ := unref_of_none hPipe
    exact hs.congr hRefs hSame
  | some i =>
    obtain ⟨hUsed, hWeight, hPos, hh⟩ := hs.used_of_pipeOf hPipe
    have hLe := weight_le_refsOn (s := s) hh i (s.file h).writes
    obtain ⟨hR, hW⟩ := shrink_told hTold hPipe (s.pipe i)
    obtain ⟨hDropR, hDropW, -, hDropU⟩ := drop_counts (s.file h) (s.pipe i)
    obtain ⟨hOther, hThis, hThat⟩ := refsOn_setRefs_pipe hPipe ((s.file h).refs - 1)
    have hReaders := hs.readers i hUsed
    have hWriters := hs.writers i hUsed
    rw [unref_of_pipe hPipe]
    cases hEnd : (s.file h).writes <;> rw [hEnd] at hThis hThat hR hW hWeight hLe <;>
      simp only [Bool.not_true, Bool.not_false, if_true, if_false,
        reduceCtorEq] at hThis hThat hR hW <;>
      refine hs.setPipe hOther rfl (fun _ => ?_) (fun _ => ?_) (hDropU.trans ?_) <;>
      simp only [refsOn_setPipe, hUsed, true_and] <;>
      omega

theorem Balanced.told_of_unref (hAfter : (s.unref h).1.Balanced) : s.Told h := by
  intro hSome hEnd
  obtain ⟨i, hPipe⟩ := isSome_iff_exists.mp hSome
  by_contra hFlags
  obtain ⟨hUsed, hWeight, hPos, hh⟩ := hs.used_of_pipeOf hPipe
  have hLe := weight_le_refsOn (s := s) hh i (s.file h).writes
  obtain ⟨-, hThis, -⟩ := refsOn_setRefs_pipe hPipe ((s.file h).refs - 1)
  obtain ⟨-, hDropW, -, hDropU⟩ := drop_counts (s.file h) (s.pipe i)
  have hWriters := hs.writers i hUsed
  have hShrink : (shrink (s.file h).flags (s.pipe i)).writers = (s.pipe i).writers := by
    unfold shrink
    rw [if_neg hFlags]
  rw [hEnd] at hThis hWeight hLe
  -- The writers are still counted, so the pipe stays in use and the count is wrong.
  have hStays : (drop (s.file h) (s.pipe i)).used := by
    rw [hDropU]
    exact ⟨hUsed, fun _ hBoth => by omega⟩
  have hCount := hAfter.writers i
  rw [unref_of_pipe hPipe, setPipe_self, hDropW, hShrink] at hCount
  have hSame : (s.pipe i).writers = (s.setRefs h ((s.file h).refs - 1)).refsOn i true :=
    hCount hStays
  omega

theorem Balanced.vfsPipe : s.vfsPipe.2.Balanced := by
  cases hResult : s.vfsPipe with
  | mk r s' =>
    cases r with
    | error e =>
      rw [vfsPipe_error hResult]
      exact hs
    | ok hs' =>
      obtain ⟨i, hFree, -, hPipes, hRefs⟩ := vfsPipe_new hResult
      have hNone : s.refsOn i false + s.refsOn i true = 0 := by
        by_contra hSome
        rw [(hs.used i).mpr (Nat.pos_of_ne_zero hSome)] at hFree
        cases hFree
      have hNew : ∀ w, s'.refsOn i w = s.refsOn i w + 1 := fun w => by rw [hRefs, if_pos rfl]
      refine hs.setPipe (fun j w hj => by rw [hRefs, if_neg hj, Nat.add_zero]) hPipes (fun _ => ?_)
        (fun _ => ?_) (iff_of_true rfl ?_)
      · rw [hNew]
        show 1 = _
        omega
      · rw [hNew]
        show 1 = _
        omega
      · rw [hNew]
        omega

end

end OpenFiles

namespace Pipe

variable {p : Pipe} {intr : Bool}

section

variable (hFits : p.ring.Fits pipeCap)
include hFits

theorem nodeRead_spec (len : ℕ) (intr : Bool) :
    let r := p.nodeRead len intr
    r.2 = { p with ring := r.2.ring } ∧ r.2.ring.Fits pipeCap ∧
      p.ring.contents pipeCap = r.1.bytes ++ r.2.ring.contents pipeCap := by
  unfold nodeRead
  split
  · exact ⟨rfl, hFits, rfl⟩
  split
  · refine ⟨rfl, hFits, ?_⟩
    split
    · rfl
    split <;> rfl
  · obtain ⟨hAfter, -, hContents⟩ := hFits.popN (Nat.min_le_right len p.ring.count)
    exact ⟨rfl, hAfter, hContents⟩

theorem nodeRead_eof {len : ℕ} (hLen : 0 < len) (hRead : (p.nodeRead len intr).1 = .read []) :
    p.writers = 0 ∧ p.ring.contents pipeCap = [] := by
  unfold nodeRead at hRead
  rw [if_neg (Nat.pos_iff_ne_zero.mp hLen)] at hRead
  split at hRead
  · rename_i hEmpty
    refine ⟨?_, length_eq_zero_iff.mp ((RingBuf.length_contents _ _).trans hEmpty)⟩
    by_contra hWriters
    rw [if_neg hWriters] at hRead
    split at hRead <;> cases hRead
  · obtain ⟨-, hLength, -⟩ := hFits.popN (Nat.min_le_right len p.ring.count)
    rw [read.inj hRead, length_nil] at hLength
    omega

theorem nodeWrite_spec (bytes : List (BitVec 8)) (done : ℕ) (intr : Bool) :
    let r := p.nodeWrite bytes done intr
    r.2 = { p with ring := r.2.ring } ∧ r.2.ring.Fits pipeCap ∧
      r.2.ring.contents pipeCap = p.ring.contents pipeCap ++ bytes.take (r.1.put done) := by
  unfold nodeWrite
  split
  · refine ⟨rfl, hFits, ?_⟩
    simp [put]
  split
  · refine ⟨rfl, hFits, ?_⟩
    split
    · split <;> simp [put]
    · simp [put]
  split
  · refine ⟨rfl, hFits, ?_⟩
    split <;> simp [put]
  · have hRoom : p.ring.count + (bytes.take (min bytes.length (pipeCap - p.ring.count))).length ≤
        pipeCap := by
      have hCount := hFits.count
      rw [length_take]
      omega
    obtain ⟨hAfter, hContents⟩ := hFits.pushAll hRoom
    refine ⟨rfl, hAfter, hContents.trans ?_⟩
    dsimp only
    split <;> simp [put]

end

theorem nodeWrite_broken {bytes : List (BitVec 8)} {done : ℕ}
    (hWrite : (p.nodeWrite bytes done intr).1 = .err .pipe) : p.readers = 0 := by
  unfold nodeWrite at hWrite
  split at hWrite
  · cases hWrite
  split at hWrite
  · split at hWrite
    · split at hWrite <;> cases hWrite
    · cases hWrite
  split at hWrite
  · assumption
  · dsimp only at hWrite
    split at hWrite <;> cases hWrite

end Pipe

namespace OpenFiles

variable {s s' : OpenFiles} {h i : ℕ}

section

variable (s)

theorem read_cases (h len : ℕ) (intr : Bool) : s.read h len intr = (.err .badf, s) ∨
      ∃ i, s.pipeOf h = some i ∧ s.read h len intr =
        (((s.pipe i).nodeRead len intr).1, s.setPipe i ((s.pipe i).nodeRead len intr).2) := by
  unfold read
  split
  · exact .inl rfl
  rename_i f hGet
  split
  · exact .inl rfl
  split
  · exact .inr ⟨_, pipeOf_of_node hGet ‹_›, rfl⟩
  · exact .inl rfl

theorem write_cases (h : ℕ) (bytes : List (BitVec 8)) (done : ℕ) (intr : Bool) :
    s.write h bytes done intr = (.err .badf, s) ∨ ∃ i, s.pipeOf h = some i ∧
    s.write h bytes done intr =
        (((s.pipe i).nodeWrite bytes done intr).1,
        s.setPipe i ((s.pipe i).nodeWrite bytes done intr).2) := by
  unfold write
  split
  · exact .inl rfl
  rename_i f hGet
  split
  · exact .inl rfl
  split
  · exact .inr ⟨_, pipeOf_of_node hGet ‹_›, rfl⟩
  · exact .inl rfl

end

theorem note_nil (log : ℕ → List (BitVec 8)) (i : Option ℕ) : note log i [] = log := by
  unfold note
  split
  · rw [append_nil, update_eq_self]
  · rfl

theorem Balanced.setRing (hs : s.Balanced) {p : Pipe} (hp : p = { s.pipe i with ring := p.ring }) :
    (s.setPipe i p).Balanced := by
  rw [hp]
  exact hs.setPipe (fun _ _ _ => rfl) rfl (hs.readers i) (hs.writers i) (hs.used i)

end OpenFiles

namespace PipeTrack

variable {t : PipeTrack}

/-- The counts are right, the ring of every pipe in use is sound, and what was written is what was
read and what is left. -/
structure Inv (t : PipeTrack) : Prop where
  balanced : t.s.Balanced
  fits : ∀ i, (t.s.pipe i).used → (t.s.pipe i).ring.Fits pipeCap
  data : ∀ i, (t.s.pipe i).used → t.wrote i = t.got i ++ (t.s.pipe i).ring.contents pipeCap

section

variable (ht : t.Inv)
include ht

theorem Inv.right : t.Right where
  readers := ht.balanced.readers
  writers := ht.balanced.writers
  used := ht.balanced.used
  data := ht.data
  eof := by
    intro h i len intr hPipe hLen hRead
    have hUsed := (ht.balanced.used_of_pipeOf hPipe).1
    rcases t.s.read_cases h len intr with hBad | ⟨j, hOn, hNode⟩
    · rw [hBad] at hRead
      cases hRead
    · obtain rfl := some.inj (hPipe.symm.trans hOn)
      rw [hNode] at hRead
      obtain ⟨hWriters, hEmpty⟩ := Pipe.nodeRead_eof (ht.fits i hUsed) hLen hRead
      exact ⟨(ht.balanced.writers i hUsed).symm.trans hWriters, hEmpty⟩
  broken := by
    intro h i bytes done intr hPipe hWrite
    have hUsed := (ht.balanced.used_of_pipeOf hPipe).1
    rcases t.s.write_cases h bytes done intr with hBad | ⟨j, hOn, hNode⟩
    · rw [hBad] at hWrite
      cases hWrite
    · obtain rfl := some.inj (hPipe.symm.trans hOn)
      rw [hNode] at hWrite
      exact (ht.balanced.readers i hUsed).symm.trans (Pipe.nodeWrite_broken hWrite)

theorem Inv.congr {s : OpenFiles} (hs : s.Balanced)
    (hPipe : ∀ i, (s.pipe i).used → (t.s.pipe i).used ∧ (s.pipe i).ring = (t.s.pipe i).ring) :
    Inv { t with s := s } := by
  refine ⟨hs, fun i hUsed => ?_, fun i hUsed => ?_⟩
  · obtain ⟨hBefore, hRing⟩ := hPipe i hUsed
    rw [hRing]
    exact ht.fits i hBefore
  · obtain ⟨hBefore, hRing⟩ := hPipe i hUsed
    rw [hRing]
    exact ht.data i hBefore

theorem Inv.move {i : ℕ} {s : OpenFiles} (hs : s.Balanced) {wrote got : ℕ → List (BitVec 8)}
    (hOff : ∀ j ≠ i, s.pipe j = t.s.pipe j ∧ wrote j = t.wrote j ∧ got j = t.got j)
    (hFits : (s.pipe i).ring.Fits pipeCap)
    (hData : wrote i = got i ++ (s.pipe i).ring.contents pipeCap) : Inv ⟨s, wrote, got⟩ := by
  refine ⟨hs, fun j hUsed => ?_, fun j hUsed => ?_⟩
  · rcases eq_or_ne j i with rfl | hj
    · exact hFits
    · rw [(hOff j hj).1] at hUsed ⊢
      exact ht.fits j hUsed
  · rcases eq_or_ne j i with rfl | hj
    · exact hData
    · dsimp only at hUsed ⊢
      rw [(hOff j hj).1] at hUsed ⊢
      rw [(hOff j hj).2.1, (hOff j hj).2.2]
      exact ht.data j hUsed

theorem Inv.pipe : (t.exec .pipe).Inv := by
  unfold exec
  have hBalanced := ht.balanced.vfsPipe
  cases hResult : t.s.vfsPipe with
  | mk r s =>
    rw [hResult] at hBalanced
    cases r with
    | error e =>
      rw [vfsPipe_error hResult]
      exact ht
    | ok ends =>
      obtain ⟨i, -, hOn, hPipes, -⟩ := vfsPipe_new hResult
      have hAt : s.pipe i = freshPipe (t.s.pipe i) :=
        (congrFun hPipes i).trans (t.s.setPipe_self i _)
      dsimp only
      rw [hOn]
      refine ht.move hBalanced (i := i) (fun j hj => ⟨?_, ?_, ?_⟩) ?_ ?_
      · exact (congrFun hPipes j).trans (t.s.setPipe_of_ne hj _)
      · exact update_of_ne hj _ _
      · exact update_of_ne hj _ _
      · rw [hAt]
        exact ⟨Nat.succ_pos _, Nat.zero_le _, Nat.succ_pos _, rfl⟩
      · rw [hAt, update_self, update_self]
        rfl

theorem Inv.read (h len : ℕ) (intr : Bool) : (t.exec (.read h len intr)).Inv := by
  unfold exec
  dsimp only
  rcases t.s.read_cases h len intr with hBad | ⟨i, hPipe, hNode⟩
  · rw [hBad]
    dsimp only [bytes]
    rw [note_nil]
    exact ht
  · have hUsed := (ht.balanced.used_of_pipeOf hPipe).1
    obtain ⟨hOnly, hFits, hContents⟩ := Pipe.nodeRead_spec (ht.fits i hUsed) len intr
    rw [hNode, hPipe]
    refine ht.move (ht.balanced.setRing hOnly) (i := i) (fun j hj => ⟨t.s.setPipe_of_ne hj _, rfl,
      update_of_ne hj _ _⟩) ?_ ?_
    · rw [setPipe_self]
      exact hFits
    · rw [note, update_self, setPipe_self, append_assoc, ← hContents]
      exact ht.data i hUsed

theorem Inv.write (h : ℕ) (bytes : List (BitVec 8)) (done : ℕ) (intr : Bool) :
    (t.exec (.write h bytes done intr)).Inv := by
  unfold exec
  dsimp only
  rcases t.s.write_cases h bytes done intr with hBad | ⟨i, hPipe, hNode⟩
  · rw [hBad]
    dsimp only [put]
    rw [take_zero, note_nil]
    exact ht
  · have hUsed := (ht.balanced.used_of_pipeOf hPipe).1
    obtain ⟨hOnly, hFits, hContents⟩ := Pipe.nodeWrite_spec (ht.fits i hUsed) bytes done intr
    rw [hNode, hPipe]
    refine ht.move (ht.balanced.setRing hOnly) (i := i) (fun j hj => ⟨t.s.setPipe_of_ne hj _,
      update_of_ne hj _ _, rfl⟩) ?_ ?_
    · rw [setPipe_self]
      exact hFits
    · rw [note, update_self, setPipe_self, hContents, ← append_assoc, ht.data i hUsed]

end

end PipeTrack

namespace OpenFiles

variable {s : OpenFiles} {h i : ℕ}

section

variable (s)

theorem ref_data (h i : ℕ) :
    ((s.ref h).pipe i).used = (s.pipe i).used ∧ ((s.ref h).pipe i).ring = (s.pipe i).ring := by
  cases hPipe : s.pipeOf h with
  | none =>
    rw [(ref_of_none hPipe).2]
    exact ⟨rfl, rfl⟩
  | some k =>
    rw [ref_of_pipe hPipe]
    rcases eq_or_ne i k with rfl | hi
    · rw [setPipe_self]
      unfold grow
      split <;> exact ⟨rfl, rfl⟩
    · rw [setPipe_of_ne _ hi]
      exact ⟨rfl, rfl⟩

theorem unref_data (h i : ℕ) (hUsed : ((s.unref h).1.pipe i).used) :
    (s.pipe i).used ∧ ((s.unref h).1.pipe i).ring = (s.pipe i).ring := by
  cases hPipe : s.pipeOf h with
  | none =>
    rw [(unref_of_none hPipe).2] at hUsed ⊢
    exact ⟨hUsed, rfl⟩
  | some k =>
    rw [unref_of_pipe hPipe] at hUsed ⊢
    rcases eq_or_ne i k with rfl | hi
    · obtain ⟨-, -, hRing, hDrop⟩ := drop_counts (s.file h) (s.pipe i)
      rw [setPipe_self] at hUsed ⊢
      exact ⟨(hDrop.mp hUsed).1, hRing⟩
    · rw [setPipe_of_ne _ hi] at hUsed ⊢
      exact ⟨hUsed, rfl⟩

theorem setfl_pipe (h : ℕ) (nonblock : Bool) : (s.setfl h nonblock).pipe = s.pipe := by
  unfold setfl
  split <;> rfl

theorem openNode_pipe (n : Node) (flags : BitVec 32) : (s.openNode n flags).2.pipe = s.pipe := by
  unfold openNode
  split <;> rfl

end

end OpenFiles

namespace PipeTrack

variable {t : PipeTrack}

theorem Inv.exec (ht : t.Inv) {op : PipeOp} (hSound : t.Sound op) : (t.exec op).Inv := by
  cases op with
  | pipe => exact ht.pipe
  | openOther n flags =>
    unfold PipeTrack.exec
    dsimp only
    split
    · exact ht
    · refine ht.congr (ht.balanced.openNode (Bool.not_eq_true _ ▸ ‹_›) flags) fun i hUsed => ?_
      rw [openNode_pipe] at hUsed ⊢
      exact ⟨hUsed, rfl⟩
  | ref h =>
    refine ht.congr (ht.balanced.ref hSound) fun i hUsed => ?_
    obtain ⟨hSame, hRing⟩ := t.s.ref_data h i
    exact ⟨hSame.symm.trans hUsed, hRing⟩
  | unref h => exact ht.congr (ht.balanced.unref hSound) fun i hUsed => t.s.unref_data h i hUsed
  | setfl h nonblock =>
    refine ht.congr (ht.balanced.setfl h nonblock) fun i hUsed => ?_
    rw [setfl_pipe] at hUsed ⊢
    exact ⟨hUsed, rfl⟩
  | read h len intr => exact ht.read h len intr
  | write h bytes done intr => exact ht.write h bytes done intr

theorem Right.balanced (ht : t.Right) : t.s.Balanced := ⟨ht.readers, ht.writers, ht.used⟩

theorem Inv.right_iff (ht : t.Inv) (op : PipeOp) : (t.exec op).Right ↔ t.Sound op := by
  constructor
  · intro hRight
    cases op with
    | ref h => exact ht.balanced.told_of_ref hRight.balanced
    | unref h => exact ht.balanced.told_of_unref hRight.balanced
    | _ => trivial
  · exact fun hSound => (ht.exec hSound).right

theorem inv_boot : boot.Inv := by
  refine ⟨⟨fun i hUsed => ?_, fun i hUsed => ?_, fun i => ?_⟩, fun i hUsed => ?_, fun i hUsed => ?_⟩
  · cases hUsed
  · cases hUsed
  · have hNone : ∀ w, boot.s.refsOn i w = 0 := fun w =>
      Finset.sum_eq_zero fun h _ => weight_of_free rfl i w
    rw [hNone, hNone]
    exact ⟨fun hUsed => (by cases hUsed), fun hPos => absurd hPos (Nat.lt_irrefl 0)⟩
  · cases hUsed
  · cases hUsed

/-- Along a run every step leaves the pipes right exactly when no step of the run takes or drops a
reference on a write end with `O_NONBLOCK`. -/
theorem pipes_right_iff (ops : List PipeOp) :
    Along (fun t op => (exec t op).Right) exec boot ops ↔ Along Sound exec boot ops :=
  along_iff (fun _ op ht => ht.right_iff op) (fun _ _ ht hSound => ht.exec hSound) inv_boot ops

/-- A pipe, `O_NONBLOCK` on its write end, one byte, and the write end is closed. -/
def nonblockThenClose : List PipeOp := [.pipe, .setfl 1 true, .write 1 [7] 0 false, .unref 1]

/-- The reader is no longer counted although its descriptor is open, the writer still is: the reader
reads the byte and then waits for ever. -/
theorem closed_writer_still_counted : ((nonblockThenClose.foldl exec boot).s.pipe 0).readers = 0 ∧
      ((nonblockThenClose.foldl exec boot).s.pipe 0).writers = 1 ∧
      ((nonblockThenClose.foldl exec boot).s.file 0).refs = 1 ∧
      ((nonblockThenClose.foldl exec boot).s.file 1).refs = 0 ∧
      (((nonblockThenClose.foldl exec boot).exec (.read 0 1 false)).s.read 0 1 false).1 = .wait 0 :=
  ⟨by decide +kernel, by decide +kernel, by decide +kernel, by decide +kernel, by decide +kernel⟩

end PipeTrack

end Gnos.Files
