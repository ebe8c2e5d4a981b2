import Gnos.Ext2.Model

/-! The meaning of a path on an ext2 volume, one name after the other, and the turns of `path_walk`
that depart from it. -/

namespace Gnos.Ext2

open List

def names (path : Path) : List (List UInt8) := (path.splitOn slash).filter fun c => c ≠ []

/-- Where the usual walk is: the directory, the names that are left, and how many links it may still
follow.  `seen` is the target that it put in the place of a link last. -/
structure Goal where
  dir : ℕ
  left : List (List UInt8)
  links : ℕ
  seen : Path

structure Loop where
  comps : List (List UInt8)
  i : ℕ
  cwd : ℕ
  cur : ℕ
  parent : ℕ
  seen : Path

namespace Volume

variable (v : Volume) (follow : Bool)

/-- The target of a link: a link without blocks has it in its inode. -/
def text (ino : ℕ) : Path :=
  let n := v.inode ino
  if n.blocks = 0 then (range n.size).map (inlineByte n) else v.read ino 0 n.size

/-- A name has the inode of its first record in use, in a directory that has one. -/
theorem dirFind_eq_iff {dino ino : ℕ} {name : List UInt8} (hIno : ino ≠ 0) :
    v.dirFind dino name = ino ↔ v.isDirAt dino ∧ ∃ before p after,
      v.stream dino = before ++ p :: after ∧ p.entry.name = name ∧ p.entry.ino = ino ∧
        ∀ q ∈ before, q.entry.ino ≠ 0 → q.entry.name ≠ name := by
  unfold dirFind
  split_ifs with hDir
  · constructor
    · intro h
      split at h
      · exact absurd h.symm hIno
      · rename_i p hFind
        obtain ⟨hp, before, after, hStream, hBefore⟩ := find?_eq_some_iff_append.mp hFind
        refine ⟨hDir, before, p, after, hStream, by simp_all, h, fun q hq hUsed hName => ?_⟩
        simpa [hUsed, hName] using hBefore q hq
    · rintro ⟨-, before, p, after, hStream, hName, hp, hBefore⟩
      have hFind : (v.stream dino).find? (fun p => p.entry.ino != 0 && p.entry.name == name) =
          some p := by
        refine find?_eq_some_iff_append.mpr ⟨by simp [hName, hp, hIno], before, after, hStream, ?_⟩
        intro q hq
        simpa [or_iff_not_imp_left] using hBefore q hq
      rw [hFind]
      exact hp
  · exact iff_of_false (fun h => hIno h.symm) fun h => hDir h.1

/-- One name of the usual walk: the inode that the path names, or 0, or where the walk goes on. -/
def next (g : Goal) : ℕ ⊕ Goal :=
  match g.left with
  | [] => .inl g.dir
  | name :: rest =>
    let ino := v.dirFind g.dir name
    if ino = 0 then .inl 0
    else if ¬v.geo.ValidInode ino then .inl 0
    else if (v.inode ino).isLink then
      if rest = [] ∧ !follow then .inl ino
      else if g.links = 0 then .inl 0
      else
        let target := v.text ino
        .inr ⟨if target.head? = some slash then rootIno else g.dir, names target ++ rest,
          g.links - 1, target⟩
    else if (v.inode ino).isDir then .inr ⟨ino, rest, g.links, g.seen⟩
    else .inl (if rest = [] then ino else 0)

theorem next_lt {g g' : Goal} (h : v.next follow g = .inr g') :
    Prod.Lex (· < ·) (· < ·) (g'.links, g'.left.length) (g.links, g.left.length) := by
  unfold next at h
  split at h
  · cases h
  · rename_i hLeft
    rw [hLeft]
    dsimp only at h
    split_ifs at h <;> cases h <;> simp [Prod.lex_def] <;> omega

def resolve (g : Goal) : ℕ :=
  match _h : v.next follow g with
  | .inl ino => ino
  | .inr g' => resolve g'
termination_by (g.links, g.left.length)
decreasing_by exact v.next_lt follow _h

/-- One turn of the loop; there is no result as in `walkFrom`. -/
def turn (s : Loop) : Option Walk ⊕ Loop :=
  match s.comps[s.i]? with
  | none => .inl (s.comps.getLast?.map fun leaf => ⟨s.cur, s.parent, leaf⟩)
  | some name =>
    let ino := v.dirFind s.cwd name
    let last := s.i + 1 = s.comps.length
    if ino = 0 then .inl (some (if last then ⟨0, s.cwd, name⟩ else .nothing))
    else if ¬v.geo.ValidInode ino then .inl (some .nothing)
    else if (v.inode ino).isLink then
      if last ∧ !follow then .inl (some ⟨ino, s.cwd, name⟩)
      else if pwLoop ≤ s.i then .inl (some .nothing)
      else
        let target := v.linkTarget ino
        let comps := splice s.comps s.i target
        if pwMaxComp < (components target).length then .inl (some .nothing)
        else if pwMaxComp < comps.length then .inl none
        else if target.head? = some slash then .inr ⟨comps, 0, rootIno, s.cur, s.parent, target⟩
        else .inr { s with comps, seen := target }
    else if (v.inode ino).isDir then
      .inr { s with i := s.i + 1, cwd := ino, cur := ino, parent := s.cwd }
    else .inl (some (if last then ⟨ino, s.cwd, name⟩ else .nothing))

def walkLoop (n : ℕ) (s : Loop) : Option Walk :=
  v.walkFrom follow n s.comps s.i s.cwd s.cur s.parent

theorem walkLoop_succ (n : ℕ) (s : Loop) :
    v.walkLoop follow (n + 1) s = (v.turn follow s).elim id (v.walkLoop follow n) := by
  simp only [walkLoop, walkFrom, turn]
  cases s.comps[s.i]? with
  | none => rfl
  | some name => simp only [apply_ite (Sum.elim id _), Sum.elim_inl, Sum.elim_inr, id, walkLoop]

/-- Both walks are in one directory, with the same names left. -/
def Met (s : Loop) (g : Goal) : Prop := s.cwd = g.dir ∧ s.comps.drop s.i = g.left ∧ s.seen = g.seen

/-- A turn does what the usual walk does with the same name. -/
def Agree (s : Loop) (g : Goal) : Prop :=
  match v.turn follow s, v.next follow g with
  | .inl w, .inl ino => w.map Walk.ino = some ino
  | .inr s, .inr g => Met s g
  | _, _ => False

/-- Before a turn: when no name is left, `cur` is the directory; a link that is one too many is at
an index that ends the walk; and any other is at a lower index, was read where its target is, is the
last name if its target is absolute, and has a target whose names are short and fit. -/
def Sound (s : Loop) (g : Goal) : Prop :=
  match s.comps.drop s.i with
  | [] => s.comps ≠ [] ∧ s.cur = s.cwd
  | name :: rest =>
    let ino := v.dirFind s.cwd name
    let target := v.linkTarget ino
    ino ≠ 0 → v.geo.ValidInode ino → (v.inode ino).isLink → ¬(rest = [] ∧ !follow) →
      if g.links = 0 then pwLoop ≤ s.i ∨ pwMaxComp < (components target).length
      else s.i < pwLoop ∧ (splice s.comps s.i target).length ≤ pwMaxComp ∧ target = v.text ino ∧
        (target.head? = some slash → rest = []) ∧ ∀ c ∈ names target, c.length < nameMax

/-- What holds before each of the first `n` turns, as long as both walks go on. -/
def Through (P : Loop → Goal → Prop) : ℕ → Loop → Goal → Prop
  | 0, _, _ => True
  | n + 1, s, g =>
    P s g ∧ ∀ s' g', v.turn follow s = .inr s' → v.next follow g = .inr g' → Through P n s' g'

variable {v follow} {s : Loop} {g : Goal}

theorem components_append_iff (target : Path) {a b : List (List UInt8)} :
    components target ++ a = names target ++ b ↔ a = b ∧
    ∀ c ∈ names target, c.length < nameMax := by
  have hCut : components target = (names target).map (take (nameMax - 1)) := rfl
  have hShort : components target = names target ↔ ∀ c ∈ names target, c.length < nameMax := by
    conv_lhs => rw [hCut, ← map_id (names target)]
    simp only [map_map, map_inj_left, Function.comp, id, take_eq_self_iff, nameMax, Nat.lt_succ_iff]
  rw [← hShort]
  constructor
  · intro h
    exact (append_inj h (by simp [hCut])).symm
  · rintro ⟨rfl, h⟩
    rw [h]

theorem agree_iff (hMet : Met s g) : v.Agree follow s g ↔ v.Sound follow s g := by
  obtain ⟨hDir, hLeft, hSeen⟩ := hMet
  unfold Agree Sound
  cases hg : g.left with
  | nil =>
    rw [hg] at hLeft
    simp only [turn, next, hg, hLeft, getElem?_eq_none (drop_eq_nil_iff.mp hLeft), ← hDir]
    cases hLast : s.comps.getLast? with
    | none => simp_all
    | some leaf => simp [show s.comps ≠ [] by rintro hNil; simp [hNil] at hLast]
  | cons name rest =>
    rw [hg] at hLeft
    have hName : s.comps[s.i]? = some name := by rw [← head?_drop, hLeft]; rfl
    have hLast : (s.i + 1 = s.comps.length) = (rest = []) := by
      have hLength := congrArg length hLeft
      simp at hLength
      rw [← length_eq_zero_iff, eq_iff_iff]
      omega
    have hRest : s.comps.drop (s.i + 1) = rest := by rw [← drop_drop, hLeft]; rfl
    simp only [turn, next, hg, hLeft, hName, hLast, ← hDir]
    generalize v.dirFind s.cwd name = ino
    by_cases h0 : ino = 0
    · simp only [h0, if_true]
      split <;> simp [Walk.nothing]
    by_cases hValid : v.geo.ValidInode ino
    swap
    · simp [h0, hValid, Walk.nothing]
    by_cases hLink : (v.inode ino).isLink
    swap
    · by_cases hIsDir : (v.inode ino).isDir
      · simp [h0, hValid, hLink, hIsDir, Met, hRest, hSeen]
      · by_cases hEnd : rest = [] <;> simp [h0, hValid, hLink, hIsDir, hEnd, Walk.nothing]
    by_cases hFin : rest = [] ∧ !follow
    · simp [h0, hValid, hLink, hFin]
    simp only [h0, hValid, hLink, hFin, ne_eq, not_true, not_false_eq_true, if_true, if_false,
      forall_const]
    generalize v.linkTarget ino = target
    by_cases hi : pwLoop ≤ s.i
    · by_cases hLinks : g.links = 0 <;> simp [hLinks, hi, Nat.not_lt.mpr hi, Walk.nothing]
    have hMore : (components target).length ≤ (splice s.comps s.i target).length := by
      unfold splice
      split <;> simp
      omega
    by_cases hMany : pwMaxComp < (components target).length
    · have hFull := Nat.lt_of_lt_of_le hMany hMore
      by_cases hLinks : g.links = 0 <;> simp [hLinks, hi, hMany, Nat.not_le.mpr hFull, Walk.nothing]
    by_cases hFull : pwMaxComp < (splice s.comps s.i target).length
    · by_cases hLinks : g.links = 0 <;> simp [hLinks, hi, hMany, hFull, Nat.not_le.mpr hFull]
    simp only [hi, hMany, hFull, if_false, Nat.not_le.mp hi, Nat.not_lt.mp hFull, true_and, or_self]
    by_cases hLinks : g.links = 0
    · by_cases hAbs : target.head? = some slash <;> simp [hLinks, hAbs]
    by_cases hText : target = v.text ino
    swap
    · by_cases hAbs : target.head? = some slash <;> simp [hLinks, hAbs, hText, Met]
    have hLong : (s.comps.take s.i).length = s.i := by
      have := (List.getElem?_eq_some_iff.mp hName).1
      simp
      omega
    rw [← hText]
    by_cases hAbs : target.head? = some slash
    · simp only [hLinks, hAbs, Met, splice, if_true, if_false, drop_zero, forall_const, and_true,
        true_and]
      simpa [eq_comm] using components_append_iff target (a := []) (b := rest)
    · simp only [hLinks, hAbs, Met, splice, if_false, and_true, true_and, append_assoc,
        drop_left' hLong, hRest, components_append_iff, false_implies]

theorem through_iff (hMet : Met s g) (n : ℕ) :
    v.Through follow (v.Agree follow) n s g ↔ v.Through follow (v.Sound follow) n s g := by
  induction n generalizing s g with
  | zero => rfl
  | succ n ih =>
    rw [Through, Through, agree_iff hMet]
    refine and_congr_right fun hSound => forall₄_congr fun s' g' hTurn hNext => ih ?_
    have hAgree := (agree_iff hMet).mpr hSound
    rwa [Agree, hTurn, hNext] at hAgree

theorem resolve_inl {ino : ℕ} (h : v.next follow g = .inl ino) : v.resolve follow g = ino := by
  unfold resolve
  split <;> simp_all

theorem resolve_inr {g' : Goal} (h : v.next follow g = .inr g') :
    v.resolve follow g = v.resolve follow g' := by
  rw [resolve]
  split <;> simp_all

/-- A walk that agrees in every turn ends, with the inode that the path names. -/
theorem walkLoop_eq (h : ∀ n, v.Through follow (v.Agree follow) n s g) :
    ∃ n0, ∀ n ≥ n0, (v.walkLoop follow n s).map Walk.ino = some (v.resolve follow g) := by
  induction g using resolve.induct v follow generalizing s with
  | case1 g ino hNext =>
    have hAgree := (h 1).1
    refine ⟨1, fun n hn => ?_⟩
    obtain ⟨n, rfl⟩ := Nat.exists_eq_add_of_le' hn
    rw [walkLoop_succ, resolve_inl hNext]
    unfold Agree at hAgree
    cases hTurn : v.turn follow s <;> simp_all
  | case2 g g' hNext ih =>
    have hAgree := (h 1).1
    unfold Agree at hAgree
    cases hTurn : v.turn follow s with
    | inl w => simp_all
    | inr s' =>
      obtain ⟨n0, hEnd⟩ := ih fun n => (h (n + 1)).2 s' g' hTurn hNext
      refine ⟨n0 + 1, fun n hn => ?_⟩
      obtain ⟨n, rfl⟩ := Nat.exists_eq_add_of_le' (Nat.le_of_add_left_le hn)
      rw [walkLoop_succ, hTurn, resolve_inr hNext]
      exact hEnd n (by omega)

def start (path : Path) : Loop :=
  ⟨components (path.take (symlinkMax - 1)), 0, rootIno, rootIno, rootIno, []⟩

def goal (path : Path) : Goal := ⟨rootIno, names path, pwLoop, []⟩

/-- `path_walk` begins with all names of an absolute path, and `P` holds before every turn. -/
def Proceeds (v : Volume) (follow : Bool) (P : Loop → Goal → Prop) (path : Path) : Prop :=
  path.head? = some slash ∧ (start path).comps = names path ∧ (names path).length ≤ pwMaxComp ∧
    (names path ≠ [] → ∀ n, v.Through follow P n (start path) (goal path))

/-- A walk does in every turn what the usual walk does exactly when every turn is sound, and then it
ends with the inode that the path names. -/
theorem walk_agrees_iff (v : Volume) (follow : Bool) (path : Path) :
    (v.Proceeds follow (v.Agree follow) path ↔ v.Proceeds follow (v.Sound follow) path) ∧
      (v.Proceeds follow (v.Sound follow) path → ∃ n₀, ∀ n ≥ n₀,
        (v.pathWalk n path follow).map Walk.ino = some (v.resolve follow (goal path))) := by
  have hIff : v.Proceeds follow (v.Agree follow) path ↔
      v.Proceeds follow (v.Sound follow) path := by
    refine and_congr_right fun _ => and_congr_right fun hAll => and_congr_right fun _ => ?_
    exact forall₂_congr fun _ n => through_iff (s := start path) (g := goal path) ⟨rfl, hAll, rfl⟩ n
  refine ⟨hIff, fun h => ?_⟩
  obtain ⟨hAbs, hAll, hRoom, hTurns⟩ := hIff.mpr h
  have hComps : components (path.take (symlinkMax - 1)) = names path := hAll
  simp only [pathWalk, hAbs, hComps, Nat.not_lt.mpr hRoom, ne_eq, not_true, if_false]
  by_cases hNone : names path = []
  · refine ⟨0, fun n _ => ?_⟩
    rw [if_pos hNone, resolve_inl (by rw [next, goal, hNone])]
    rfl
  · simp only [if_neg hNone]
    have hEnd := walkLoop_eq (hTurns hNone)
    simpa only [walkLoop, start, hComps] using hEnd

/-- A volume with `/d/f`, and with `/l` for `/d`. -/
def linked : Volume where
  geo := .small 8 (by decide) (by decide)
  allocHint := 0
  creatorUid := 0
  creatorGid := 0
  wtime := 0
  freeBlocks := 5
  freeInodes := 3
  group _ := ⟨5, 3, 2⟩
  blockUsed b := b < 4
  inodeUsed i := i < 15
  inode
    | 2 =>
      { mode := sIfdir, size := 1024, links := 3, blocks := 2,
        block := fun i => if i = 0 then 2 else 0 }
    | 12 =>
      { mode := sIfdir, size := 1024, links := 2, blocks := 2,
        block := fun i => if i = 0 then 3 else 0 }
    | 13 =>
      { mode := sIflnk, size := 2, links := 1,
        block := fun i => if i = 0 then 47 + 100 * 256 else 0 }
    | 14 => { mode := sIfreg, links := 1 }
    | _ => {}
  ptr _ _ := 0
  data _ _ := 0
  dir
    | 2 => [⟨2, 12, [dot], 2⟩, ⟨2, 12, [dot, dot], 2⟩, ⟨12, 12, [100], 2⟩, ⟨13, 988, [108], 7⟩]
    | 3 => [⟨12, 12, [dot], 2⟩, ⟨2, 12, [dot, dot], 2⟩, ⟨14, 1000, [102], 1⟩]
    | _ => []

/-- `/l/f` is the file 14, and the walk returns the directory 12: the absolute target took the place
of the name after the link as well. -/
theorem tail_lost_after_absolute_link :
    (linked.pathWalk 9 [slash, 108, slash, 102] true).map Walk.ino = some 12 ∧
      linked.resolve true (goal [slash, 108, slash, 102]) = 14 := by
  refine ⟨by decide +kernel, ?_⟩
  exact (resolve_inr rfl).trans <| (resolve_inr rfl).trans <| resolve_inl rfl

end Volume

end Gnos.Ext2
