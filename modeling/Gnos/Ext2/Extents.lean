import Gnos.Vfs.Mounting

/-!
# Extent trees (`src/fs/ext2/ext2.c`)

The root of an ext4 inode's extent tree lies in its block array, at `I_BLOCK`. `ext4_bmap`
checks the magic number there and then takes the inode itself for the root node.
-/

namespace Gnos.Ext2

open Vfs (rd16 rd32)

abbrev Bytes := ℕ → UInt8

def I_BLOCK : ℕ := 40
def EXT4_EH_MAGIC : ℕ := 0xF30A
def EXT4_EXT_MAX_LEN : ℕ := 0x8000

section Code

variable (blkPtr : ℕ → Option Bytes)

def ext4LeafBmap (eh : Bytes) (iblk : ℕ) : ℕ :=
  let lblk i := rd32 eh (12 + i * 12)
  let raw i := rd16 eh (12 + i * 12 + 4)
  let phys i := rd32 eh (12 + i * 12 + 8) + rd16 eh (12 + i * 12 + 12) * 2 ^ 32
  match (List.range (rd16 eh 2)).find? fun i =>
      lblk i ≤ iblk ∧ iblk < (lblk i + raw i % EXT4_EXT_MAX_LEN) % 2 ^ 32 with
  | none => 0
  | some i =>
    if EXT4_EXT_MAX_LEN ≤ raw i ∨ phys i = 0 then 0 else (phys i + (iblk - lblk i)) % 2 ^ 32

/-- The child `ext4_descend` picks: that of the last entry before the first key past `iblk`. -/
def pickChild (node : Bytes) (iblk : ℕ) : ℕ :=
  match ((List.range (rd16 node 2)).takeWhile
      fun i => decide (rd32 node (12 + i * 12) ≤ iblk)).getLast? with
  | none => 0
  | some i => rd32 node (12 + i * 12 + 8) + rd16 node (12 + i * 12 + 12) * 2 ^ 32

def ext4Descend (iblk : ℕ) : ℕ → Bytes → Option Bytes
  | 0, node => some node
  | depth + 1, node =>
    if 5 < depth + 1 then none
    else if pickChild node iblk = 0 then none
    else match blkPtr (pickChild node iblk) with
      | none => none
      | some next =>
        if rd16 next 0 ≠ EXT4_EH_MAGIC ∨ rd16 next 6 ≠ depth then none
        else ext4Descend iblk depth next

/-- What `ext4_bmap` computes from the node it takes for the root. -/
def bmapFrom (node : Bytes) (iblk : ℕ) : ℕ :=
  if 0 < rd16 node 6 then
    match ext4Descend blkPtr iblk (rd16 node 6) node with
    | none => 0
    | some leaf => ext4LeafBmap leaf iblk
  else ext4LeafBmap node iblk

def ext4Bmap (ip : Bytes) (iblk : ℕ) : ℕ :=
  if rd16 ip I_BLOCK ≠ EXT4_EH_MAGIC ∨ rd16 ip (I_BLOCK + 2) = 0 then 0
  else bmapFrom blkPtr ip iblk

end Code

/-! ## The tree as the disk format defines it -/

structure Extent where
  first : ℕ
  len : ℕ
  start : ℕ
  written : Bool

/-- An entry of a leaf: `ee_block`, `ee_len`, `ee_start_hi` and `ee_start_lo`. A length above
`2 ^ 15` marks an extent that is not initialised. -/
def extentAt (p : Bytes) (i : ℕ) : Extent :=
  let raw := rd16 p (12 + i * 12 + 4)
  { first := rd32 p (12 + i * 12)
    len := if raw ≤ EXT4_EXT_MAX_LEN then raw else raw - EXT4_EXT_MAX_LEN
    start := rd32 p (12 + i * 12 + 8) + rd16 p (12 + i * 12 + 6) * 2 ^ 32
    written := raw ≤ EXT4_EXT_MAX_LEN }

def keyAt (p : Bytes) (i : ℕ) : ℕ := rd32 p (12 + i * 12)

/-- An entry of an index node: `ei_leaf_lo` and `ei_leaf_hi`. -/
def childAt (p : Bytes) (i : ℕ) : ℕ :=
  rd32 p (12 + i * 12 + 4) + rd16 p (12 + i * 12 + 8) * 2 ^ 32

/-- Where the range of entry `i` ends, in a node whose own range ends at `hi`. -/
def endAt (p : Bytes) (hi i : ℕ) : ℕ := if i + 1 < rd16 p 2 then keyAt p (i + 1) else hi

/-- The root node of the tree, in the inode's block array. -/
def root (ip : Bytes) : Bytes := fun k => ip (I_BLOCK + k)

section Format

variable (blkPtr : ℕ → Option Bytes)

def InTree : ℕ → Bytes → Extent → Prop
  | 0, p, e => ∃ i < rd16 p 2, e = extentAt p i
  | d + 1, p, e => ∃ i < rd16 p 2, ∃ q, blkPtr (childAt p i) = some q ∧ InTree d q e

/-- A node of depth `d` for the logical blocks from `lo` up to `hi`, its entries in order and
apart from each other. -/
def WellFormed : ℕ → ℕ → ℕ → Bytes → Prop
  | 0, lo, hi, p => rd16 p 0 = EXT4_EH_MAGIC ∧ rd16 p 6 = 0 ∧ ∀ i < rd16 p 2,
      lo ≤ (extentAt p i).first ∧ 0 < (extentAt p i).len ∧ 0 < (extentAt p i).start ∧
      (extentAt p i).first + (extentAt p i).len ≤ endAt p hi i ∧
      (extentAt p i).start + (extentAt p i).len ≤ 2 ^ 32
  | d + 1, lo, hi, p => rd16 p 0 = EXT4_EH_MAGIC ∧ rd16 p 6 = d + 1 ∧ ∀ i < rd16 p 2,
      lo ≤ keyAt p i ∧ keyAt p i < endAt p hi i ∧
      ∃ q, blkPtr (childAt p i) = some q ∧ WellFormed d (keyAt p i) (endAt p hi i) q

def Extent.Maps (e : Extent) (iblk : ℕ) : Prop :=
  e.first ≤ iblk ∧ iblk < e.first + e.len ∧ e.written

variable (t : Bytes) (iblk : ℕ)

/-- No initialised extent of the tree contains the block. -/
def Hole (d : ℕ) : Prop := ∀ e, InTree blkPtr d t e → ¬ e.Maps iblk

def Right (d r : ℕ) : Prop :=
  (r = 0 ∧ Hole blkPtr t iblk d) ∨
    ∃ e, InTree blkPtr d t e ∧ e.Maps iblk ∧ r = e.start + (iblk - e.first)

variable {blkPtr t}

theorem start_pos {e : Extent} : ∀ {d lo hi : ℕ} {p : Bytes}, WellFormed blkPtr d lo hi p →
    InTree blkPtr d p e → 0 < e.start
  | 0, _, _, _, ⟨_, _, hEntry⟩, ⟨i, hi, he⟩ => he ▸ (hEntry i hi).2.2.1
  | d + 1, _, _, _, ⟨_, _, hEntry⟩, ⟨i, hi, q, hq, hIn⟩ => by
    obtain ⟨_, _, q', hq', hWf⟩ := hEntry i hi
    obtain rfl : q' = q := Option.some.inj (hq'.symm.trans hq)
    exact start_pos hWf hIn

theorem right_zero_iff {d : ℕ} (hTree : WellFormed blkPtr d 0 (2 ^ 32) t) :
    Right blkPtr t iblk d 0 ↔ Hole blkPtr t iblk d := by
  refine ⟨?_, fun h => .inl ⟨rfl, h⟩⟩
  rintro (⟨_, h⟩ | ⟨e, hIn, _, hZero⟩)
  · exact h
  · have := start_pos hTree hIn
    omega

theorem hole_of_empty {d : ℕ} (h : rd16 t 2 = 0) : Hole blkPtr t iblk d := by
  intro e hIn
  cases d <;> obtain ⟨i, hi, -⟩ := hIn <;> omega

end Format

variable {blkPtr : ℕ → Option Bytes} {ip t : Bytes} {d : ℕ}

theorem bmapFrom_of_leaf {iblk : ℕ} (hChild : pickChild ip iblk = 0 ∨ ∀ p, ext4LeafBmap p iblk = 0)
    (hLeaf : ext4LeafBmap ip iblk = 0) : bmapFrom blkPtr ip iblk = 0 := by
  unfold bmapFrom
  split
  · next hDepth =>
    split
    · rfl
    next leaf hDescend =>
    obtain hChild | hAll := hChild
    · obtain ⟨depth, hd⟩ := Nat.exists_eq_succ_of_ne_zero hDepth.ne'
      simp [hd, ext4Descend, hChild] at hDescend
    · exact hAll leaf
  · exact hLeaf

/-- The owner's number stands where a node has its number of entries. -/
theorem bmapFrom_of_root_owner (iblk : ℕ) (h : rd16 ip 2 = 0) : bmapFrom blkPtr ip iblk = 0 :=
  bmapFrom_of_leaf (.inl (by simp [pickChild, h])) (by simp [ext4LeafBmap, h])

/-- The end of an extent is computed in 32 bits, so that none reaches past the last block. -/
theorem bmapFrom_last : bmapFrom blkPtr ip (2 ^ 32 - 1) = 0 := by
  have hLeaf : ∀ p, ext4LeafBmap p (2 ^ 32 - 1) = 0 := by
    intro p
    have hNone : ∀ i : ℕ, ¬ (4294967295 < i % 4294967296) := fun i => by omega
    simp [ext4LeafBmap, hNone, List.find?_eq_none.mpr]
  exact bmapFrom_of_leaf (.inr hLeaf) (hLeaf ip)

theorem ext4Bmap_of_root (hTree : WellFormed blkPtr d 0 (2 ^ 32) t) (hRoot : root ip = t)
    (iblk : ℕ) : ext4Bmap blkPtr ip iblk = if rd16 t 2 = 0 then 0 else bmapFrom blkPtr ip iblk := by
  subst hRoot
  have hMagic : rd16 ip I_BLOCK = EXT4_EH_MAGIC := by
    cases d <;> exact hTree.1
  show (if _ ∨ rd16 (root ip) 2 = 0 then 0 else _) = _
  simp [hMagic]

/-- The inode with the given first bytes and the tree `t` behind them. -/
def inodeOf (fields : Bytes) (t : Bytes) : Bytes := fun k =>
  if k < I_BLOCK then fields k else t (k - I_BLOCK)

theorem root_inodeOf (fields t : Bytes) : root (inodeOf fields t) = t := by
  funext k
  simp [root, inodeOf, I_BLOCK]

/-- One entry, as a node: the block `iblk` is block 1 of the disk. In the inode this is the owner 1,
the time of change `iblk`, and 1 as time of modification and of deletion. -/
def oneEntry (iblk : ℕ) : Bytes
  | 2 => 1
  | 12 => .ofNat iblk
  | 13 => .ofNat (iblk / 2 ^ 8)
  | 14 => .ofNat (iblk / 2 ^ 16)
  | 15 => .ofNat (iblk / 2 ^ 24)
  | 16 => 1
  | 20 => 1
  | _ => 0

theorem bmapFrom_oneEntry {iblk : ℕ} (h : iblk + 1 < 2 ^ 32) :
    bmapFrom blkPtr (inodeOf (oneEntry iblk) t) iblk = 1 := by
  have hFirst : rd32 (inodeOf (oneEntry iblk) t) 12 = iblk := by
    simp [rd32, rd16, inodeOf, I_BLOCK, oneEntry]
    omega
  have hEntries : rd16 (inodeOf (oneEntry iblk) t) 2 = 1 := by
    simp [rd16, inodeOf, I_BLOCK, oneEntry]
  have hDepth : rd16 (inodeOf (oneEntry iblk) t) 6 = 0 := by
    simp [rd16, inodeOf, I_BLOCK, oneEntry]
  have hLen : rd16 (inodeOf (oneEntry iblk) t) 16 = 1 := by
    simp [rd16, inodeOf, I_BLOCK, oneEntry]
  have hPhys : rd32 (inodeOf (oneEntry iblk) t) 20 = 1 := by
    simp [rd32, rd16, inodeOf, I_BLOCK, oneEntry]
  have hHigh : rd16 (inodeOf (oneEntry iblk) t) 24 = 0 := by
    simp [rd16, inodeOf, I_BLOCK, oneEntry]
  have hEnd : (iblk + 1) % 4294967296 = iblk + 1 := Nat.mod_eq_of_lt h
  simp [bmapFrom, ext4LeafBmap, hFirst, hLen, hPhys, hHigh, hEntries, hDepth, EXT4_EXT_MAX_LEN,
    hEnd]

/-- The lookup of a block in a tree is right in every inode that has this tree exactly if the tree
is empty, or the block is the last of all and a hole. In an inode whose owner's number has low half
0 it is right exactly for the holes. -/
theorem ext4Bmap_right_iff (blkPtr : ℕ → Option Bytes) (t : Bytes) (d iblk : ℕ)
    (hTree : WellFormed blkPtr d 0 (2 ^ 32) t) (hBlk : iblk < 2 ^ 32) :
    ((∀ ip, root ip = t → Right blkPtr t iblk d (ext4Bmap blkPtr ip iblk)) ↔
      rd16 t 2 = 0 ∨ iblk = 2 ^ 32 - 1 ∧ Hole blkPtr t iblk d) ∧
    ∀ ip, root ip = t → rd16 ip 2 = 0 →
      (Right blkPtr t iblk d (ext4Bmap blkPtr ip iblk) ↔ Hole blkPtr t iblk d) := by
  have hOwner : ∀ ip, root ip = t → rd16 ip 2 = 0 →
      (Right blkPtr t iblk d (ext4Bmap blkPtr ip iblk) ↔ Hole blkPtr t iblk d) := by
    intro ip hRoot h
    rw [ext4Bmap_of_root hTree hRoot, bmapFrom_of_root_owner iblk h, ite_self]
    exact right_zero_iff iblk hTree
  refine ⟨⟨fun hAll => ?_, ?_⟩, hOwner⟩
  · by_contra hNot
    rw [not_or, not_and] at hNot
    -- An inode of root's says that the block is a hole, another one that it is not.
    have hHole := (hOwner _ (root_inodeOf (fun _ => 0) t) (by simp [rd16, inodeOf, I_BLOCK])).mp
      (hAll _ (root_inodeOf _ t))
    have hLast : iblk ≠ 2 ^ 32 - 1 := fun h => hNot.2 h hHole
    have hOne := hAll _ (root_inodeOf (oneEntry iblk) t)
    rw [ext4Bmap_of_root hTree (root_inodeOf _ t), if_neg hNot.1,
      bmapFrom_oneEntry (by omega)] at hOne
    obtain ⟨hZero, -⟩ | ⟨e, hIn, hMaps, -⟩ := hOne
    · cases hZero
    · exact hHole e hIn hMaps
  · rintro (hEmpty | ⟨rfl, hHole⟩) ip hRoot
    · rw [ext4Bmap_of_root hTree hRoot, if_pos hEmpty]
      exact .inl ⟨rfl, hole_of_empty iblk hEmpty⟩
    · rw [ext4Bmap_of_root hTree hRoot, bmapFrom_last, ite_self]
      exact .inl ⟨rfl, hHole⟩

/-- A file of root's with one extent: its blocks 0 to 7 are blocks 100 to 107 of the disk. -/
def eightBlocks : Bytes
  | 40 => 0x0A
  | 41 => 0xF3
  | 42 => 1
  | 56 => 8
  | 60 => 100
  | _ => 0

theorem eightBlocks_wellFormed : WellFormed (fun _ => none) 0 0 (2 ^ 32) (root eightBlocks) := by
  refine ⟨by decide, by decide, fun i hi => ?_⟩
  obtain rfl : i = 0 := Nat.lt_one_iff.mp hi
  decide

theorem ext4Bmap_misses_extent :
    WellFormed (fun _ => none) 0 0 (2 ^ 32) (root eightBlocks) ∧
      InTree (fun _ => none) 0 (root eightBlocks) ⟨0, 8, 100, true⟩ ∧
      ext4Bmap (fun _ => none) eightBlocks 3 = 0 ∧
      ¬ Right (fun _ => none) (root eightBlocks) 3 0
        (ext4Bmap (fun _ => none) eightBlocks 3) := by
  have hIn : InTree (fun _ => none) 0 (root eightBlocks) ⟨0, 8, 100, true⟩ :=
    ⟨0, by decide, by simp [extentAt, root, rd16, rd32, eightBlocks, I_BLOCK, EXT4_EXT_MAX_LEN]⟩
  have hZero : ext4Bmap (fun _ => none) eightBlocks 3 = 0 := by decide
  refine ⟨eightBlocks_wellFormed, hIn, hZero, ?_⟩
  rw [hZero, right_zero_iff 3 eightBlocks_wellFormed]
  exact fun h => h _ hIn ⟨by decide, by decide, rfl⟩

/-- Block 8 of that file is past its extent, and so not for every owner a hole. -/
theorem ext4Bmap_right_past_end :
    Right (fun _ => none) (root eightBlocks) 8 0 (ext4Bmap (fun _ => none) eightBlocks 8) ∧
      ¬ ∀ ip, root ip = root eightBlocks →
        Right (fun _ => none) (root eightBlocks) 8 0 (ext4Bmap (fun _ => none) ip 8) := by
  obtain ⟨hAll, hOwner⟩ := ext4Bmap_right_iff _ _ 0 8 eightBlocks_wellFormed (by decide)
  refine ⟨(hOwner eightBlocks rfl (by decide)).mpr ?_, fun h => ?_⟩
  swap
  · obtain hEmpty | ⟨hLast, -⟩ := hAll.mp h
    · exact absurd hEmpty (by decide)
    · cases hLast
  rintro e ⟨i, hi, rfl⟩ ⟨_, hEnd, _⟩
  obtain rfl : i = 0 := Nat.lt_one_iff.mp hi
  exact absurd hEnd (by decide)

end Gnos.Ext2
