import Gnos.ProofKit.Patches
import Gnos.Vmm.Mmap

/-! The records of the mappings as a map from addresses to flags, while no two of them overlap.
Joining records leaves the map as it is; `mmap_update_flags` changes its range while the array has a
slot for every piece. -/

namespace Gnos.Mmaps

open ProofKit Vmm List Option Nat List.Pairwise

/-- Where a mapping does not get in the way of the stack, nor reach into the arena from below. -/
structure Spot (base size : ℕ) : Prop where
  limit : base + size ≤ userLimit
  stack : base + size ≤ stackTop - stackMax ∨ stackTop ≤ base
  arena : base < mmapBase → base + size < mmapBase

structure Fine (r : MmapRec) : Prop where
  base : r.base % pageSize = 0
  size : r.size % pageSize = 0
  pos : 0 < r.size
  spot : Spot r.base r.size
  user : r.flags.user
  private_ : r.flags.extshm = false

def Covers (r : MmapRec) (a : ℕ) : Prop := r.base ≤ a ∧ a < r.base + r.size

instance (r : MmapRec) (a : ℕ) : Decidable (Covers r a) := inferInstanceAs (Decidable (_ ∧ _))

structure Records (l : List MmapRec) : Prop where
  fine : ∀ r ∈ l, Fine r
  apart : Apart Covers l
  room : l.length ≤ maxMmaps

def flagsAt (l : List MmapRec) (a : ℕ) : Option VmFlags := (last l a).map (·.flags)

theorem Spot.lt {base size : ℕ} (h : Spot base size) : base + size < 2 ^ 64 := by
  have hLimit := h.limit
  unfold userLimit at hLimit
  omega

section Records

variable {l l' : List MmapRec} {r q : MmapRec} {a i j : ℕ} {t : VmFlags}

namespace Fine

theorem stop (h : Fine r) : r.stop = r.base + r.size := add64_of_lt h.spot.lt

theorem covers (h : Fine r) : r.covers a ↔ Covers r a := by
  unfold MmapRec.covers Covers
  rw [h.stop, Bool.and_eq_true, decide_eq_true_eq, decide_eq_true_eq]

theorem covers_page (h : Fine r) : Covers r (pageDown a) ↔ Covers r a := by
  have hBase := h.base
  have hSize := h.size
  unfold Covers pageDown
  unfold pageSize at *
  omega

end Fine

theorem recAt_eq (hi : i < l.length) : recAt l i = l[i] := by
  unfold recAt
  rw [getD_eq_getElem _ _ hi]

namespace Records

theorem perm (h : Records l) (hPerm : l.Perm l') : Records l' :=
  ⟨fun r hr => h.fine r (hPerm.mem_iff.mpr hr), h.apart.perm hPerm, hPerm.length_eq ▸ h.room⟩

theorem empty : Records [] := ⟨by simp, nil, zero_le _⟩

section

variable (h : Records l)
include h

theorem last_eq_some : last l a = some r ↔ r ∈ l ∧ Covers r a := by
  unfold last
  constructor
  · intro hFind
    have hr := mem_reverse.mp (mem_of_find?_eq_some hFind)
    exact ⟨hr, (h.fine r hr).covers.mp (by simpa using find?_some hFind)⟩
  · rintro ⟨hr, hCovers⟩
    cases hFind : l.reverse.find? (·.covers a) with
    | none =>
      have hNot := find?_eq_none.mp hFind r (mem_reverse.mpr hr)
      exact absurd ((h.fine r hr).covers.mpr hCovers) hNot
    | some q =>
      have hq := mem_reverse.mp (mem_of_find?_eq_some hFind)
      have hqa := (h.fine q hq).covers.mp (by simpa using find?_some hFind)
      rw [h.apart.unique hr hq hCovers hqa]

theorem flagsAt_eq_some : flagsAt l a = some t ↔ Shows Covers MmapRec.flags l a t := by
  unfold flagsAt
  rw [map_eq_some_iff]
  constructor
  · rintro ⟨r, hr, rfl⟩
    exact ⟨r, (h.last_eq_some.mp hr).1, (h.last_eq_some.mp hr).2, rfl⟩
  · rintro ⟨r, hr, hCovers, rfl⟩
    exact ⟨r, h.last_eq_some.mpr ⟨hr, hCovers⟩, rfl⟩

theorem flagsAt_of_mem (hr : r ∈ l) (hCovers : Covers r a) : flagsAt l a = some r.flags :=
  h.flagsAt_eq_some.mpr ⟨r, hr, hCovers, rfl⟩

theorem flagsAt_eq_none : flagsAt l a = none ↔ ∀ r ∈ l, ¬Covers r a := by
  constructor
  · intro hNone r hr hCovers
    rw [h.flagsAt_of_mem hr hCovers] at hNone
    cases hNone
  · intro hNone
    by_contra hSome
    obtain ⟨t, ht⟩ := ne_none_iff_exists'.mp hSome
    obtain ⟨r, hr, hCovers, -⟩ := h.flagsAt_eq_some.mp ht
    exact hNone r hr hCovers

theorem flagsAt_congr (h' : Records l')
    (hShows : ∀ t, Shows Covers MmapRec.flags l' a t ↔ Shows Covers MmapRec.flags l a t) :
    flagsAt l' a = flagsAt l a := by
  refine ext fun t => ?_
  rw [h'.flagsAt_eq_some, h.flagsAt_eq_some, hShows]

theorem flagsAt_perm (hPerm : l.Perm l') : flagsAt l' a = flagsAt l a :=
  h.flagsAt_congr (h.perm hPerm) fun _ =>
    ⟨fun hShows => hShows.perm hPerm.symm, fun hShows => hShows.perm hPerm⟩

theorem splice {new : List MmapRec} (hi : i < l.length) (hPerm : l'.Perm (new ++ l.eraseIdx i))
    (hNew : Records new) (hIn : ∀ q ∈ new, ∀ a, Covers q a → Covers l[i] a)
    (hRoom : l'.length ≤ maxMmaps) :
    Records l' ∧ ∀ a, flagsAt l' a = if Covers l[i] a then flagsAt new a else flagsAt l a := by
  have hOld : l.Perm ([l[i]] ++ l.eraseIdx i) := (getElem_cons_eraseIdx_perm hi).symm
  have h' := h.perm hOld
  have hAll : Records l' := by
    refine ⟨?_, ?_, hRoom⟩
    · intro q hq
      rcases mem_append.mp (hPerm.mem_iff.mp hq) with hq | hq
      · exact hNew.fine q hq
      · exact h'.fine q (mem_append_right _ hq)
    · refine (h'.apart.replace new hNew.apart ?_).perm hPerm.symm
      exact fun q hq a ha => ⟨l[i], mem_singleton_self _, hIn q hq a ha⟩
  refine ⟨hAll, fun a => ?_⟩
  split_ifs with hCovers
  · refine hNew.flagsAt_congr hAll fun t => ⟨fun hShows => ?_, fun hShows => ?_⟩
    · rcases shows_append.mp (hShows.perm hPerm) with hShows | ⟨q, hq, hqa, -⟩
      · exact hShows
      · exact absurd hqa (h'.apart.not_covers hq hCovers)
    · exact (shows_append.mpr (.inl hShows)).perm hPerm.symm
  · refine h.flagsAt_congr hAll fun t => ⟨fun hShows => ?_, fun hShows => ?_⟩
    · rcases shows_append.mp (hShows.perm hPerm) with ⟨q, hq, hqa, -⟩ | hShows
      · exact absurd (hIn q hq a hqa) hCovers
      · exact (shows_append.mpr (.inr hShows)).perm hOld.symm
    · rcases shows_append.mp (hShows.perm hOld) with ⟨q, hq, hqa, -⟩ | hShows
      · rw [mem_singleton.mp hq] at hqa
        exact absurd hqa hCovers
      · exact (shows_append.mpr (.inr hShows)).perm hPerm.symm

end

end Records

theorem lowHigh_cases (l : List MmapRec) (i j : ℕ) :
    lowHigh l i j = (i, j) ∨ lowHigh l i j = (j, i) := by
  unfold lowHigh
  split
  · exact .inr rfl
  · exact .inl rfl

def joined (r q : MmapRec) : MmapRec := { r with size := add64 r.size q.size }

theorem merge_perm {lo hi : ℕ} (hPair : lowHigh l i j = (lo, hi)) (hLo : lo < l.length)
    (hHi : hi < l.length) (hne : lo ≠ hi) :
    ∃ rest, l.Perm (l[lo] :: l[hi] :: rest) ∧ (merge l i j).Perm (joined l[lo] l[hi] :: rest) := by
  obtain ⟨rest, hOld, hNew⟩ := absorb_perm hLo hHi hne (joined l[lo] l[hi])
  refine ⟨rest, hOld, ?_⟩
  have hSet : hi < (l.set lo (joined l[lo] l[hi])).length := by rwa [length_set]
  have hSwap := swapRemove_perm hSet { base := 0, size := 0, flags := {} }
  unfold merge
  rw [hPair]
  dsimp only
  rw [recAt_eq hLo, recAt_eq hHi]
  exact hSwap.trans hNew

theorem mergeable_spec (hij : i < j) (hj : j < l.length) (h : mergeable l i j) :
    ∃ lo hi, ∃ (hLo : lo < l.length) (hHi : hi < l.length), lowHigh l i j = (lo, hi) ∧ lo ≠ hi ∧
      l[hi].flags = l[lo].flags ∧ l[lo].stop = l[hi].base := by
  have hi : i < l.length := by omega
  unfold mergeable at h
  simp only [Bool.and_eq_true, decide_eq_true_eq] at h
  obtain ⟨⟨hFlags, hStop⟩, -⟩ := h
  rw [recAt_eq hj, recAt_eq hi] at hFlags
  rcases lowHigh_cases l i j with hPair | hPair <;> rw [hPair] at hStop
  · exact ⟨i, j, hi, hj, hPair, by omega, hFlags, by rwa [recAt_eq hi, recAt_eq hj] at hStop⟩
  · exact ⟨j, i, hj, hi, hPair, by omega, hFlags.symm, by rwa [recAt_eq hi, recAt_eq hj] at hStop⟩

theorem Records.merge (h : Records l) (hij : i < j) (hj : j < l.length)
    (hMergeable : mergeable l i j) :
    Records (merge l i j) ∧ ∀ a, flagsAt (merge l i j) a = flagsAt l a := by
  obtain ⟨lo, hi, hLo, hHi, hPair, hne, hSameFlags, hMeet⟩ := mergeable_spec hij hj hMergeable
  obtain ⟨rest, hOld, hNew⟩ := merge_perm hPair hLo hHi hne
  have h' : Records (l[lo] :: l[hi] :: rest) := h.perm hOld
  have hFineLo := h'.fine l[lo] (by simp)
  have hFineHi := h'.fine l[hi] (by simp)
  generalize l[lo] = r at *
  generalize l[hi] = q at *
  rw [hFineLo.stop] at hMeet
  have hLimit := hFineHi.spot.limit
  have hSize : (joined r q).size = r.size + q.size := by
    refine add64_of_lt ?_
    unfold userLimit at hLimit
    omega
  have hCover : ∀ a, Covers (joined r q) a ↔ Covers r a ∨ Covers q a := by
    have hBase : (joined r q).base = r.base := rfl
    unfold Covers
    omega
  have hFine : Fine (joined r q) := by
    have hBase : (joined r q).base = r.base := rfl
    have hSizeLo := hFineLo.size
    have hSizeHi := hFineHi.size
    have hStackLo := hFineLo.spot.stack
    have hStackHi := hFineHi.spot.stack
    have hArenaLo := hFineLo.spot.arena
    have hArenaHi := hFineHi.spot.arena
    have hPosHi := hFineHi.pos
    refine ⟨hFineLo.base, ?_, ?_, ⟨?_, ?_, ?_⟩, hFineLo.user, hFineLo.private_⟩
    · unfold pageSize at *
      omega
    · omega
    · omega
    · unfold stackTop stackMax at *
      omega
    · omega
  have hAll : Records (joined r q :: rest) := by
    refine ⟨?_, ?_, ?_⟩
    · intro p hp
      rcases mem_cons.mp hp with rfl | hp
      · exact hFine
      · exact h'.fine p (by simp [hp])
    · have hApart : Apart Covers ([r, q] ++ rest) := h'.apart
      refine hApart.replace [joined r q] (pairwise_singleton _ _) ?_
      intro p hp a hpa
      rw [mem_singleton.mp hp, hCover] at hpa
      rcases hpa with hra | hqa
      · exact ⟨r, by simp, hra⟩
      · exact ⟨q, by simp, hqa⟩
    · have hRoom := h'.room
      simp only [length_cons] at hRoom ⊢
      omega
  refine ⟨hAll.perm hNew.symm, fun a => ?_⟩
  rw [hAll.flagsAt_perm hNew.symm, ← h.flagsAt_perm hOld]
  refine h'.flagsAt_congr hAll fun t => ?_
  unfold Shows
  simp only [mem_cons, exists_eq_or_imp, hCover, hSameFlags]
  tauto

theorem Records.coalesceAt (n : ℕ) : ∀ {l : List MmapRec}, Records l →
    Records (coalesceAt i n l) ∧ ∀ a, flagsAt (coalesceAt i n l) a = flagsAt l a := by
  induction n with
  | zero => exact fun h => ⟨h, fun _ => rfl⟩
  | succ n ih =>
    intro l h
    unfold Mmaps.coalesceAt
    cases hFind : (range' (i + 1) (l.length - (i + 1))).find? (mergeable l i) with
    | none => exact ⟨h, fun _ => rfl⟩
    | some j =>
      have hj := mem_range'_1.mp (mem_of_find?_eq_some hFind)
      obtain ⟨hMerge, hSame⟩ := h.merge (by omega) (by omega) (find?_some hFind)
      obtain ⟨hRest, hSame'⟩ := ih hMerge
      exact ⟨hRest, fun a => (hSame' a).trans (hSame a)⟩

theorem Records.coalesceFrom (n : ℕ) : ∀ {l : List MmapRec} {i : ℕ}, Records l →
    Records (coalesceFrom n i l) ∧ ∀ a, flagsAt (coalesceFrom n i l) a = flagsAt l a := by
  induction n with
  | zero => exact fun h => ⟨h, fun _ => rfl⟩
  | succ n ih =>
    intro l i h
    unfold Mmaps.coalesceFrom
    split
    · obtain ⟨hRow, hSame⟩ := h.coalesceAt (i := i) l.length
      obtain ⟨hRest, hSame'⟩ := ih hRow
      exact ⟨hRest, fun a => (hSame' a).trans (hSame a)⟩
    · exact ⟨h, fun _ => rfl⟩

theorem Records.record (h : Records l) (hFine : Fine r)
    (hClear : ∀ q ∈ l, ∀ a, Covers q a → ¬Covers r a) (hRoom : l.length < maxMmaps) :
    ∃ l', record l r.base r.size r.flags = some l' ∧ Records l' ∧
      ∀ a, flagsAt l' a = if Covers r a then some r.flags else flagsAt l a := by
  have hAll : Records (l ++ [r]) := by
    refine ⟨?_, h.apart.add hClear, ?_⟩
    · intro q hq
      rcases mem_append.mp hq with hq | hq
      · exact h.fine q hq
      · rw [mem_singleton.mp hq]
        exact hFine
    · rw [length_append, length_singleton]
      exact hRoom
  have hAdd : ∀ a, flagsAt (l ++ [r]) a = if Covers r a then some r.flags else flagsAt l a := by
    intro a
    split_ifs with hCovers
    · exact hAll.flagsAt_of_mem (mem_append_right _ (mem_singleton_self r)) hCovers
    · refine h.flagsAt_congr hAll fun t => ⟨fun hShows => ?_, fun hShows => ?_⟩
      · rcases shows_append.mp hShows with hShows | ⟨q, hq, hqa, -⟩
        · exact hShows
        · rw [mem_singleton.mp hq] at hqa
          exact absurd hqa hCovers
      · exact shows_append.mpr (.inl hShows)
  obtain ⟨hJoined, hSame⟩ := hAll.coalesceFrom (i := 0) (l ++ [r]).length
  refine ⟨coalesce (l ++ [r]), ?_, hJoined, fun a => (hSame a).trans (hAdd a)⟩
  exact if_neg (not_le.mpr hRoom)

theorem arenaTop_spec (l : List MmapRec) (top : ℕ) :
    let result := l.foldl (fun base r =>
      if r.base < mmapBase || mmapTop ≤ r.base then base else if base < r.stop then r.stop
      else base)
      top
    top ≤ result ∧ (result = top ∨ ∃ r ∈ l, result = r.stop) ∧
      ∀ r ∈ l, mmapBase ≤ r.base → r.base < mmapTop → r.stop ≤ result := by
  induction l generalizing top with
  | nil => exact ⟨le_refl _, .inl rfl, by simp⟩
  | cons r l ih =>
    intro result
    obtain ⟨next, hNext⟩ : ∃ next, next =
        if r.base < mmapBase || mmapTop ≤ r.base then top
        else if top < r.stop then r.stop else top := ⟨_, rfl⟩
    have hCases : top ≤ next ∧ (next = top ∨ next = r.stop) ∧
        (mmapBase ≤ r.base → r.base < mmapTop → r.stop ≤ next) := by
      rw [hNext]
      split
      · rename_i hOut
        rw [Bool.or_eq_true, decide_eq_true_eq, decide_eq_true_eq] at hOut
        exact ⟨le_refl _, .inl rfl, by omega⟩
      · split
        · exact ⟨by omega, .inr rfl, fun _ _ => le_refl _⟩
        · exact ⟨le_refl _, .inl rfl, fun _ _ => by omega⟩
    have hResult : result = l.foldl (fun base r =>
        if r.base < mmapBase || mmapTop ≤ r.base then base
        else if base < r.stop then r.stop else base) next := by
      rw [hNext]
      rfl
    obtain ⟨hLe, hFrom, hAbove⟩ := ih next
    rw [← hResult] at hLe hFrom hAbove
    refine ⟨by omega, ?_, ?_⟩
    · rcases hFrom with hFrom | ⟨q, hq, hFrom⟩
      · rcases hCases.2.1 with hTop | hStop
        · exact .inl (by omega)
        · exact .inr ⟨r, by simp, by omega⟩
      · exact .inr ⟨q, by simp [hq], hFrom⟩
    · intro q hq hLow hHigh
      rcases mem_cons.mp hq with rfl | hq
      · exact (hCases.2.2 hLow hHigh).trans hLe
      · exact hAbove q hq hLow hHigh

theorem Records.pickBase (h : Records l) {size base : ℕ} (hSize : size ≤ userLimit)
    (hPick : pickBase l size = some base) :
    base % pageSize = 0 ∧ mmapBase ≤ base ∧ base + size ≤ mmapTop ∧
      ∀ q ∈ l, ∀ a, Covers q a → ¬(base ≤ a ∧ a < base + size) := by
  obtain ⟨hLow, hFrom, hAbove⟩ := arenaTop_spec l mmapBase
  have hBase : arenaTop l = base := by
    unfold Mmaps.pickBase at hPick
    split at hPick
    · cases hPick
    · exact some.inj hPick
  change mmapBase ≤ arenaTop l at hLow
  change arenaTop l = mmapBase ∨ ∃ r ∈ l, arenaTop l = r.stop at hFrom
  change ∀ r ∈ l, mmapBase ≤ r.base → r.base < mmapTop → r.stop ≤ arenaTop l at hAbove
  rw [hBase] at hLow hFrom hAbove
  have hAligned : base % pageSize = 0 ∧ base ≤ userLimit := by
    rcases hFrom with rfl | ⟨r, hr, rfl⟩
    · exact ⟨by decide, by decide⟩
    · have hFine := h.fine r hr
      have hStart := hFine.base
      have hLength := hFine.size
      rw [hFine.stop]
      refine ⟨?_, hFine.spot.limit⟩
      unfold pageSize at *
      omega
  have hEnd : base + size ≤ mmapTop := by
    unfold Mmaps.pickBase at hPick
    split at hPick
    · cases hPick
    · rename_i hFits
      rw [hBase, add64_of_lt (by unfold userLimit at *; omega)] at hFits
      omega
  refine ⟨hAligned.1, hLow, hEnd, ?_⟩
  intro q hq a hqa hIn
  have hFine := h.fine q hq
  have hArena := hFine.spot.arena
  have hUnder := hAbove q hq
  rw [hFine.stop] at hUnder
  unfold Covers at hqa
  omega

theorem Spot.sub {base size base' size' : ℕ} (h : Spot base size) (hLow : base ≤ base')
    (hHigh : base' + size' ≤ base + size) : Spot base' size' := by
  have hLimit := h.limit
  have hStack := h.stack
  have hArena := h.arena
  exact ⟨by omega, by omega, by omega⟩

/-- What a record keeps above a range that ends at `rEnd`. -/
def above (r : MmapRec) (rEnd : ℕ) : List MmapRec :=
  if rEnd < r.stop then [⟨rEnd, r.stop - rEnd, r.flags⟩] else []

/-- What it keeps below a range that starts at `addr`. -/
def below (r : MmapRec) (addr : ℕ) : List MmapRec :=
  if r.base < addr then [⟨r.base, addr - r.base, r.flags⟩] else []

def inside (r : MmapRec) (addr rEnd : ℕ) (flags : VmFlags) : MmapRec :=
  ⟨max r.base addr, min r.stop rEnd - max r.base addr, flags⟩

def Meets (r : MmapRec) (addr rEnd : ℕ) : Prop := addr < r.stop ∧ r.base < rEnd

instance (r : MmapRec) (addr rEnd : ℕ) : Decidable (Meets r addr rEnd) :=
  inferInstanceAs (Decidable (_ ∧ _))

/-- The pieces that `mmap_update_flags` makes of a record when the array has room. -/
def cut (addr rEnd : ℕ) (flags : VmFlags) (r : MmapRec) : List MmapRec :=
  if Meets r addr rEnd then inside r addr rEnd flags :: (above r rEnd ++ below r addr) else [r]

def spare (addr rEnd : ℕ) (r : MmapRec) : ℕ :=
  if Meets r addr rEnd then (above r rEnd).length + (below r addr).length else 0

theorem recAt_middle (front : List MmapRec) (r : MmapRec) (back : List MmapRec) :
    recAt (front ++ r :: back) front.length = r := by
  unfold recAt
  simp

theorem set_middle (front : List MmapRec) (r q : MmapRec) (back : List MmapRec) :
    (front ++ r :: back).set front.length q = front ++ q :: back := by
  simp

theorem reflag_outside {addr rEnd : ℕ} {flags : VmFlags} (h : ¬Meets (recAt l i) addr rEnd) :
    reflag l addr rEnd flags i = l := by
  have hOut : ((recAt l i).stop ≤ addr || rEnd ≤ (recAt l i).base) := by
    unfold Meets at h
    rw [Bool.or_eq_true, decide_eq_true_eq, decide_eq_true_eq]
    omega
  exact if_pos hOut

theorem reflag_middle {front back : List MmapRec} {addr rEnd : ℕ} {flags : VmFlags} (hFine : Fine r)
    (hMeets : Meets r addr rEnd) (hRange : addr < rEnd)
    (hRoom : (front ++ r :: back).length + spare addr rEnd r ≤ maxMmaps) :
    reflag (front ++ r :: back) addr rEnd flags front.length =
      front ++ inside r addr rEnd flags :: (back ++ (above r rEnd ++ below r addr)) := by
  have hStop := hFine.stop
  have hSpot := hFine.spot.lt
  have hOut : ¬((r.stop ≤ addr || rEnd ≤ r.base)) := by
    unfold Meets at hMeets
    rw [Bool.or_eq_true, decide_eq_true_eq, decide_eq_true_eq]
    omega
  unfold spare above below at hRoom
  rw [if_pos hMeets] at hRoom
  unfold reflag
  simp only [recAt_middle, if_neg hOut]
  obtain ⟨hLow, hHigh⟩ := hMeets
  by_cases hAbove : rEnd < r.stop
  · rw [if_pos hAbove, length_singleton] at hRoom
    have hFull : (front ++ r :: back).length < maxMmaps := by omega
    simp only [hAbove, hFull, decide_true, Bool.and_self, if_true, set_middle, append_assoc,
      cons_append]
    by_cases hBelow : r.base < addr
    · rw [if_pos hBelow, length_singleton] at hRoom
      have hFull' : (front ++ ({ r with size := rEnd - r.base } : MmapRec) ::
          (back ++ [⟨rEnd, r.stop - rEnd, r.flags⟩])).length < maxMmaps := by
        simp only [length_append, length_cons, length_nil] at hRoom ⊢
        omega
      simp only [hBelow, hFull', decide_true, Bool.and_self, if_true, set_middle, recAt_middle]
      rw [above, if_pos hAbove, below, if_pos hBelow, inside, max_eq_right hBelow.le,
        min_eq_right hAbove.le, sub64_of_le hRange.le (by omega)]
      rfl
    · simp only [hBelow, decide_false, Bool.false_and, Bool.false_eq_true, if_false, set_middle,
        recAt_middle]
      rw [above, if_pos hAbove, below, if_neg hBelow, inside, max_eq_left (by omega),
        min_eq_right hAbove.le]
      rfl
  · simp only [hAbove, decide_false, Bool.false_and, Bool.false_eq_true, if_false]
    by_cases hBelow : r.base < addr
    · rw [if_neg hAbove, if_pos hBelow, length_singleton] at hRoom
      have hFull : (front ++ r :: back).length < maxMmaps := by
        omega
      simp only [hBelow, hFull, decide_true, Bool.and_self, if_true, set_middle, recAt_middle,
        append_assoc, cons_append]
      rw [above, if_neg hAbove, below, if_pos hBelow, inside, max_eq_right hBelow.le,
        min_eq_left (by omega), sub64_of_le hLow.le (by omega)]
      rfl
    · simp only [hBelow, decide_false, Bool.false_and, Bool.false_eq_true, if_false, set_middle,
        recAt_middle]
      rw [above, if_neg hAbove, below, if_neg hBelow, inside, max_eq_left (by omega),
        min_eq_left (by omega), hStop, Nat.add_sub_cancel_left, append_nil, append_nil]

theorem updateFrom_outside {addr rEnd : ℕ} {flags : VmFlags} (n : ℕ) :
    ∀ {i : ℕ}, (∀ k, i ≤ k → k < l.length → ¬Meets (recAt l k) addr rEnd) →
      updateFrom addr rEnd flags n i l = l := by
  induction n with
  | zero => exact fun _ => rfl
  | succ n ih =>
    intro i hOut
    unfold updateFrom
    split_ifs with hi
    · rw [reflag_outside (hOut i (le_refl _) hi)]
      exact ih fun k hk => hOut k (by omega)
    · rfl

section

variable (addr rEnd flags)

theorem length_cut (r : MmapRec) : (cut addr rEnd flags r).length = spare addr rEnd r + 1 := by
  unfold cut spare
  split
  · rw [length_cons, length_append]
  · rfl

theorem length_flatMap_cut (l : List MmapRec) :
    (l.flatMap (cut addr rEnd flags)).length = l.length + (l.map (spare addr rEnd)).sum := by
  induction l with
  | nil => rfl
  | cons r l ih =>
    rw [flatMap_cons, length_append, length_cut, ih, length_cons, map_cons, sum_cons]
    omega

end

theorem not_meets_above {addr rEnd : ℕ} (hq : q ∈ above r rEnd) : ¬Meets q addr rEnd := by
  unfold above at hq
  split at hq
  · rw [mem_singleton.mp hq]
    exact fun h => lt_irrefl _ h.2
  · cases hq

theorem not_meets_below {addr rEnd : ℕ} (hAddr : addr < 2 ^ 64) (hq : q ∈ below r addr) :
    ¬Meets q addr rEnd := by
  unfold below at hq
  split at hq
  · rw [mem_singleton.mp hq]
    rintro ⟨hStop, -⟩
    have hEnd : (⟨r.base, addr - r.base, r.flags⟩ : MmapRec).stop = addr := by
      show add64 r.base (addr - r.base) = addr
      rw [add64_of_lt (by omega)]
      omega
    rw [hEnd] at hStop
    exact lt_irrefl _ hStop
  · cases hq

/-- The whole of `mmap_update_flags`: every record is cut.  `done` has been visited, `behind` holds
what was split off. -/
theorem updateFrom_perm {addr rEnd : ℕ} {flags : VmFlags} (hRange : addr < rEnd)
    (hEnd : rEnd < 2 ^ 64) (todo : List MmapRec) :
    ∀ {n : ℕ} {done behind : List MmapRec}, (∀ r ∈ todo, Fine r) →
      (∀ q ∈ behind, ¬Meets q addr rEnd) → maxMmaps ≤ n + done.length →
      (done ++ todo ++ behind).length + (todo.map (spare addr rEnd)).sum ≤ maxMmaps →
      (updateFrom addr rEnd flags n done.length (done ++ todo ++ behind)).Perm
        (done ++ (todo.flatMap (cut addr rEnd flags) ++ behind)) := by
  induction todo with
  | nil =>
    intro n done behind _ hBehind _ _
    rw [append_nil, updateFrom_outside n]
    · rfl
    · intro k hk hLt
      rw [recAt_eq hLt, getElem_append_right hk]
      exact hBehind _ (getElem_mem _)
  | cons r todo ih =>
    intro n done behind hFine hBehind hFuel hRoom
    rw [map_cons, sum_cons] at hRoom
    have hLength : (done ++ r :: todo ++ behind).length =
        done.length + (todo.length + 1) + behind.length := by
      simp only [length_append, length_cons]
    obtain ⟨n, rfl⟩ : ∃ m, n = m + 1 := ⟨n - 1, by omega⟩
    have hAssoc : done ++ r :: todo ++ behind = done ++ r :: (todo ++ behind) := by simp
    have hRest : ∀ q ∈ todo, Fine q := fun q hq => hFine q (mem_cons_of_mem r hq)
    unfold updateFrom
    rw [if_pos (by omega), hAssoc]
    by_cases hMeets : Meets r addr rEnd
    · rw [reflag_middle (hFine r (by simp)) hMeets hRange (by rw [← hAssoc]; omega)]
      have hNext := @ih n (done ++ [inside r addr rEnd flags])
        (behind ++ (above r rEnd ++ below r addr)) hRest ?_ ?_ ?_
      · rw [length_append, length_singleton] at hNext
        have hForm : done ++ inside r addr rEnd flags :: (todo ++ behind ++
            (above r rEnd ++ below r addr)) = done ++ [inside r addr rEnd flags] ++ todo ++
              (behind ++ (above r rEnd ++ below r addr)) := by simp
        rw [hForm]
        refine hNext.trans ?_
        rw [flatMap_cons, cut, if_pos hMeets]
        simp only [append_assoc, cons_append, nil_append]
        refine ((List.Perm.cons _ ?_)).append_left done
        -- What is split off moves from the end of the array to its record.
        have hMove := @perm_append_comm _ (todo.flatMap (cut addr rEnd flags) ++ behind)
          (above r rEnd ++ below r addr)
        simpa only [append_assoc] using hMove
      · intro q hq
        rcases mem_append.mp hq with hq | hq
        · exact hBehind q hq
        · rcases mem_append.mp hq with hq | hq
          · exact not_meets_above hq
          · exact not_meets_below (by omega) hq
      · rw [length_append, length_singleton]
        omega
      · have hSpare : spare addr rEnd r = (above r rEnd).length + (below r addr).length :=
          if_pos hMeets
        simp only [length_append, length_cons, length_nil] at hRoom ⊢
        omega
    · have hAt := recAt_middle done r (todo ++ behind)
      rw [reflag_outside (by rwa [hAt])]
      have hNext := @ih n (done ++ [r]) behind hRest hBehind
        (by rw [length_append, length_singleton]; omega)
        (by simp only [length_append, length_cons, length_nil] at hRoom ⊢; omega)
      have hForm : done ++ r :: (todo ++ behind) = done ++ [r] ++ todo ++ behind := by simp
      rw [hForm, flatMap_cons, cut, if_neg hMeets]
      simpa using hNext

theorem Fine.sub (h : Fine r) {b n : ℕ} (hLow : r.base ≤ b) (hPos : 0 < n)
    (hHigh : b + n ≤ r.base + r.size) (hBase : b % pageSize = 0) (hSize : n % pageSize = 0)
    (hUser : t.user) (hPrivate : t.extshm = false) : Fine ⟨b, n, t⟩ :=
  ⟨hBase, hSize, hPos, h.spot.sub hLow hHigh, hUser, hPrivate⟩

section Cut

variable {addr rEnd : ℕ} {flags : VmFlags} {qs qs' : List MmapRec} {f f' : ℕ → VmFlags → Prop}

/-- Pieces of a record: they are fine, do not overlap, and show the flags `f` where the record
is. -/
structure Part (r : MmapRec) (qs : List MmapRec) (f : ℕ → VmFlags → Prop) : Prop where
  fine : ∀ q ∈ qs, Fine q
  apart : Apart Covers qs
  shows_iff : ∀ a t, Shows Covers MmapRec.flags qs a t ↔ Covers r a ∧ f a t

theorem Part.append (h : Part r qs f) (h' : Part r qs' f') (hOff : ∀ a t t', f a t → ¬f' a t') :
    Part r (qs ++ qs') fun a t => f a t ∨ f' a t := by
  refine ⟨forall_mem_append.mpr ⟨h.fine, h'.fine⟩, pairwise_append.mpr ⟨h.apart, h'.apart, ?_⟩,
    fun a t => ?_⟩
  · intro q hq p hp a hqa hpa
    have hHere := (h.shows_iff a q.flags).mp ⟨q, hq, hqa, rfl⟩
    exact hOff a _ _ hHere.2 ((h'.shows_iff a p.flags).mp ⟨p, hp, hpa, rfl⟩).2
  · rw [shows_append, h.shows_iff, h'.shows_iff, and_or_left]

theorem Part.piece {P : ℕ → Prop} (hFine : Fine q) (hCovers : ∀ a, Covers q a ↔ Covers r a ∧ P a) :
    Part r [q] fun a t => P a ∧ t = q.flags := by
  refine ⟨forall_mem_singleton.mpr hFine, pairwise_singleton _ _, fun a t => ?_⟩
  unfold Shows
  rw [eq_comm (a := t)]
  simp only [mem_singleton, exists_eq_left, hCovers, and_assoc]

theorem Part.none {P : ℕ → Prop} (hOut : ∀ a, Covers r a → ¬P a) (t : VmFlags) :
    Part r [] fun a u => P a ∧ u = t := by
  refine ⟨by simp, nil, fun a u => iff_of_false ?_ fun hIn => hOut a hIn.1 hIn.2.1⟩
  rintro ⟨q, hq, -⟩
  cases hq

section

variable (h : Fine r) (hMeets : Meets r addr rEnd)
include h hMeets

theorem part_above (hEnd : rEnd % pageSize = 0) :
    Part r (above r rEnd) fun a t => rEnd ≤ a ∧ t = r.flags := by
  have hBase := h.base
  have hSize := h.size
  obtain ⟨-, hHigh⟩ := hMeets
  unfold above
  rw [h.stop]
  split
  · refine .piece (h.sub hHigh.le (by omega) (by omega) hEnd ?_ h.user h.private_) fun a => ?_
    · unfold pageSize at *
      omega
    · unfold Covers
      dsimp only
      omega
  · refine .none (fun a hra => ?_) r.flags
    unfold Covers at hra
    omega

theorem part_below (hAddr : addr % pageSize = 0) :
    Part r (below r addr) fun a t => a < addr ∧ t = r.flags := by
  have hBase := h.base
  have hLow := h.stop ▸ hMeets.1
  unfold below
  split
  · refine .piece (h.sub (le_refl _) (by omega) (by omega) hBase ?_ h.user h.private_) fun a => ?_
    · unfold pageSize at *
      omega
    · unfold Covers
      dsimp only
      omega
  · refine .none (fun a hra => ?_) r.flags
    unfold Covers at hra
    omega

theorem part_inside (hRange : addr < rEnd) (hAddr : addr % pageSize = 0)
    (hEnd : rEnd % pageSize = 0) (hUser : flags.user) (hPrivate : flags.extshm = false) :
    Part r [inside r addr rEnd flags] fun a t => (addr ≤ a ∧ a < rEnd) ∧ t = flags := by
  have hStop := h.stop
  have hBase := h.base
  have hSize := h.size
  have hPos := h.pos
  obtain ⟨hLow, hHigh⟩ := hMeets
  unfold inside
  rw [hStop]
  refine .piece (h.sub (le_max_left _ _) (by omega) (by omega) ?_ ?_ hUser hPrivate) fun a => ?_
  · rcases max_choice r.base addr with hMax | hMax
    · rw [hMax]
      exact hBase
    · rw [hMax]
      exact hAddr
  · unfold pageSize at *
    omega
  · unfold Covers
    dsimp only
    omega

end

theorem part_cut (h : Fine r) (hRange : addr < rEnd) (hAddr : addr % pageSize = 0)
    (hEnd : rEnd % pageSize = 0) (hUser : flags.user) (hPrivate : flags.extshm = false) :
    Part r (cut addr rEnd flags r) fun a t =>
      t = if addr ≤ a ∧ a < rEnd then flags else r.flags := by
  have hStop := h.stop
  unfold cut
  split
  · rename_i hMeets
    have hOuter := (part_above h hMeets hEnd).append (part_below h hMeets hAddr) (by omega)
    have hAll := (part_inside h hMeets hRange hAddr hEnd hUser hPrivate).append hOuter (by omega)
    refine ⟨hAll.fine, hAll.apart,
      fun a t => (hAll.shows_iff a t).trans (and_congr_right fun _ => ?_)⟩
    split_ifs with hIn
    · simp [hIn, not_le.mpr hIn.2, not_lt.mpr hIn.1]
    · rw [← or_and_right, or_iff_right fun hEq => hIn hEq.1, and_iff_right (by omega)]
  · rename_i hMeets
    have hAll : Part r [r] fun a t => True ∧ t = r.flags := .piece h fun _ =>
      (and_iff_left trivial).symm
    refine ⟨hAll.fine, hAll.apart,
      fun a t => (hAll.shows_iff a t).trans (and_congr_right fun hra => ?_)⟩
    rw [if_neg, true_and]
    unfold Covers at hra
    unfold Meets at hMeets
    omega

end Cut

/-- `mmap_update_flags` gives the pages of the range their new flags and leaves the others alone,
when the array has room for what it splits off. -/
theorem Records.updateFlags (h : Records l) {addr size : ℕ} (flags : VmFlags)
    (hAddr : addr % pageSize = 0) (hSize : size % pageSize = 0) (hPos : 0 < size)
    (hEnd : addr + size ≤ userLimit) (hUser : flags.user) (hPrivate : flags.extshm = false)
    (hRoom : l.length + (l.map (spare addr (addr + size))).sum ≤ maxMmaps) :
    Records (updateFlags l addr size flags) ∧ ∀ a, flagsAt (updateFlags l addr size flags) a =
        if addr ≤ a ∧ a < addr + size then (flagsAt l a).map fun _ => flags else flagsAt l a := by
  have hWord : addr + size < 2 ^ 64 := by
    unfold userLimit at hEnd
    omega
  have hAligned : (addr + size) % pageSize = 0 := by
    unfold pageSize at *
    omega
  have hPerm := @updateFrom_perm addr (addr + size) flags (by omega) hWord l maxMmaps [] [] h.fine
    (by simp) (by simp) (by simpa using hRoom)
  simp only [nil_append, append_nil, length_nil] at hPerm
  have hSpec := fun r hr =>
    part_cut (r := r) (h.fine r hr) (by omega : addr < addr + size) hAddr hAligned hUser hPrivate
  have hUpdate : Mmaps.updateFlags l addr size flags =
      updateFrom addr (addr + size) flags maxMmaps 0 l := by
    unfold Mmaps.updateFlags
    rw [add64_of_lt hWord]
  rw [hUpdate]
  have hCut : Records (l.flatMap (cut addr (addr + size) flags)) := by
    refine ⟨?_, ?_, ?_⟩
    · intro q hq
      obtain ⟨r, hr, hqr⟩ := mem_flatMap.mp hq
      exact (hSpec r hr).fine q hqr
    · refine h.apart.flatMap (fun r hr => (hSpec r hr).apart) fun r hr q hq a hqa => ?_
      exact (((hSpec r hr).shows_iff a q.flags).mp ⟨q, hq, hqa, rfl⟩).1
    · rw [length_flatMap_cut]
      exact hRoom
  refine ⟨hCut.perm hPerm.symm, fun a => ?_⟩
  rw [hCut.flagsAt_perm hPerm.symm]
  have hMap : flagsAt (l.flatMap (cut addr (addr + size) flags)) a =
      (last l a).map fun r => if addr ≤ a ∧ a < addr + size then flags else r.flags := by
    refine ext fun t => ?_
    rw [hCut.flagsAt_eq_some, map_eq_some_iff]
    simp only [h.last_eq_some]
    constructor
    · rintro ⟨q, hq, hqa⟩
      obtain ⟨r, hr, hqr⟩ := mem_flatMap.mp hq
      obtain ⟨hra, rfl⟩ := ((hSpec r hr).shows_iff a t).mp ⟨q, hqr, hqa⟩
      exact ⟨r, ⟨hr, hra⟩, rfl⟩
    · rintro ⟨r, ⟨hr, hra⟩, rfl⟩
      obtain ⟨q, hq, hqa⟩ := ((hSpec r hr).shows_iff a _).mpr ⟨hra, rfl⟩
      exact ⟨q, mem_flatMap.mpr ⟨r, hr, hq⟩, hqa⟩
  rw [hMap]
  unfold flagsAt
  split
  · rw [Option.map_map]
    rfl
  · rfl

end Records

end Gnos.Mmaps
