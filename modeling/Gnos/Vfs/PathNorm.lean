import Gnos.Ext2.Paths
import Gnos.Vfs.Model

/-! `path_norm` of `kernel/syscall.c`: the absolute name of a path, made from its text alone. -/

namespace Gnos.Vfs

open Ext2 (Path slash dot names)
open List

variable (base path : Path)

/-- The copy loop stops when the next byte leaves no room for the terminator. -/
def fill (buf s : Path) : Option Path :=
  if buf.length + s.length ≤ pathMax - 1 then some (buf ++ s) else none

def spliceBuf : Option Path :=
  if path.head? = some slash then fill [] path
  else do
    let buf ← fill [] base
    let buf ← if buf.getLast? = some slash then some buf else fill buf [slash]
    fill buf path

/-- What `..` leaves of the output after its root slash. -/
def popName (t : Path) : Path := (t.rdropWhile (· ≠ slash)).dropLast

/-- One name of the buffer; `t` is the output after its root slash. -/
def addName (t name : Path) : Option Path :=
  if name = [dot] then some t
  else if name = [dot, dot] then some (popName t)
  else if t ≠ [] ∧ pathMax - 1 ≤ t.length + 1 then none
  else
    let t := if t = [] then t else t ++ [slash]
    if pathMax ≤ t.length + 1 + name.length then none else some (t ++ name)

/-- The loop over the rest of the buffer; a turn that goes on takes at least one byte. -/
def normLoop : ℕ → Path → Path → Option Path
  | 0, _, t => some t
  | n + 1, rest, t =>
    let rest := rest.dropWhile (· = slash)
    let name := rest.takeWhile (· ≠ slash)
    if name = [] then some t else (addName t name).bind (normLoop n (rest.dropWhile (· ≠ slash)))

/-- There is no result when a name is too long. -/
def pathNorm : Option Path :=
  (spliceBuf base path).bind fun buf => (normLoop buf.length buf []).map (slash :: ·)

def splice : Path :=
  if path.head? = some slash then path
  else base ++ (if base.getLast? = some slash then [] else [slash]) ++ path

/-- One name of a path, from the place with the names `st`. -/
def enter (st : List Path) (name : Path) : List Path :=
  if name = [dot] then st else if name = [dot, dot] then st.dropLast else st ++ [name]

def eval : List Path := (names path).foldl enter []

def join (st : List Path) : Path := [slash].intercalate st

def Plain (st : List Path) : Prop := ∀ c ∈ st, (c ≠ [] ∧ slash ∉ c) ∧ c ≠ [dot] ∧ c ≠ [dot, dot]

/-- From the root, without empty, `.` and `..` names, and with no slash at its end but the
root's. -/
def Canonical (p : Path) : Prop := ∃ st, Plain st ∧ p = slash :: join st

variable {base path} {st ns : List Path} {c l t : Path}

theorem fill_bind (buf a b : Path) : (fill buf a).bind (fill · b) = fill buf (a ++ b) := by
  simp only [fill, length_append, ← Nat.add_assoc]
  split_ifs with hFirst hBoth hBoth
  · simp [hBoth]
  · simpa using hBoth
  · omega
  · rfl

theorem spliceBuf_eq : spliceBuf base path = fill [] (splice base path) := by
  unfold spliceBuf splice
  split_ifs with hAbs hSep
  · rfl
  all_goals
    rw [append_assoc, ← fill_bind]
    cases hBuf : fill [] base with
    | none => rfl
    | some buf =>
      obtain rfl : base = buf := by
        unfold fill at hBuf
        split_ifs at hBuf
        simpa using hBuf
      simp [hSep, fill_bind]

theorem names_slash : names (slash :: l) = names l := by simp [names, splitOn_cons_eq_if_modifyHead]

theorem slash_of_dropWhile {x : UInt8} (h : l.dropWhile (· ≠ slash) = x :: t) : x = slash := by
  have hHead := head?_dropWhile_not (fun c => decide (c ≠ slash)) l
  rw [h] at hHead
  simpa using hHead

theorem notMem_takeWhile : slash ∉ l.takeWhile (· ≠ slash) :=
  fun h => by simpa using mem_takeWhile_imp h

/-- The first name of a text, as the loop finds it. -/
theorem names_eq (l : Path) : names l =
    let rest := l.dropWhile (· = slash)
    let name := rest.takeWhile (· ≠ slash)
    if name = [] then [] else name :: names (rest.dropWhile (· ≠ slash)) := by
  induction l with
  | nil => rfl
  | cons x l ih =>
    by_cases hx : x = slash
    · rw [hx, names_slash, ih]
      simp
    · have hRest : (x :: l).dropWhile (· = slash) = x :: l := by simp [hx]
      have hName : (x :: l).takeWhile (· ≠ slash) ≠ [] := by simp [hx]
      simp only [hRest, if_neg hName]
      conv_lhs => rw [names, ← takeWhile_append_dropWhile (p := fun c => decide (c ≠ slash))
        (l := x :: l)]
      cases hTail : (x :: l).dropWhile (· ≠ slash) with
      | nil =>
        rw [append_nil, splitOn_eq_singleton notMem_takeWhile,
          filter_cons_of_pos (by simpa using hName)]
        rfl
      | cons y l =>
        rw [slash_of_dropWhile hTail, splitOn_append_cons_self_of_not_mem notMem_takeWhile,
          names_slash, filter_cons_of_pos (by simpa using hName), names]

/-- Every name after a slash. -/
def spell (st : List Path) : Path := (st.map (slash :: ·)).flatten

theorem spell_eq (h : st ≠ []) : spell st = slash :: join st := by
  induction st with
  | nil => exact absurd rfl h
  | cons c st ih =>
    rcases eq_or_ne st [] with rfl | hNe
    · simp [spell, join]
    · rw [join, intercalate_cons_of_ne_nil hNe, spell, map_cons, flatten_cons, ← spell, ih hNe]
      simp [join]

theorem foldl_enter (h : Plain ns) : ns.foldl enter st = st ++ ns := by
  induction ns generalizing st with
  | nil => simp
  | cons c ns ih =>
    obtain ⟨hc, hns⟩ := forall_mem_cons.mp h
    rw [foldl_cons, ih hns, enter, if_neg hc.2.1, if_neg hc.2.2, append_assoc, singleton_append]

section

variable (h : Plain st)
include h

theorem join_eq_nil : join st = [] ↔ st = [] := by
  cases st with
  | nil => simp [join]
  | cons c st =>
    obtain ⟨x, l, rfl⟩ := exists_cons_of_ne_nil (h c (by simp)).1.1
    simp [join, intercalate_cons_cons_left]

theorem join_concat (c : Path) :
    join (st ++ [c]) = (if join st = [] then join st else join st ++ [slash]) ++ c := by
  rcases eq_or_ne st [] with rfl | hNe
  · simp [join]
  · have hSpell : spell (st ++ [c]) = spell st ++ slash :: c := by simp [spell]
    rw [spell_eq (by simp), spell_eq hNe] at hSpell
    rw [if_neg (mt (join_eq_nil h).mp hNe)]
    simpa using hSpell

theorem popName_join : popName (join st) = join st.dropLast := by
  rcases eq_nil_or_concat st with rfl | ⟨st, c, rfl⟩
  · rfl
  · have hc : ∀ x ∈ c.reverse, decide (x ≠ slash) := fun x hx =>
      decide_eq_true fun hEq => (h c (by simp)).1.2 (hEq ▸ mem_reverse.mp hx)
    rw [concat_eq_append, join_concat fun d hd => h d (by simp [hd]), dropLast_concat, popName,
      rdropWhile, reverse_append, dropWhile_append_of_pos hc]
    split_ifs with hNil
    · simp [hNil]
    · simp

theorem addName_join (hc : c ≠ [] ∧ slash ∉ c)
    (hLen : (spell st).length + (c.length + 1) < pathMax) :
    addName (join st) c = some (join (enter st c)) ∧ Plain (enter st c) ∧
      (spell (enter st c)).length ≤ (spell st).length + (c.length + 1) := by
  have hJoin : join st ≠ [] → (spell st).length = (join st).length + 1 := fun hNe => by
    rw [spell_eq (mt (join_eq_nil h).mpr hNe), length_cons]
  have hRoom : (if join st = [] then join st else join st ++ [slash]).length + 1 + c.length <
      pathMax := by
    split_ifs with hNil
    · rw [hNil, length_nil]
      omega
    · have := hJoin hNil
      rw [length_append, length_singleton]
      omega
  unfold addName enter
  by_cases hDot : c = [dot]
  · rw [if_pos hDot, if_pos hDot]
    exact ⟨rfl, h, Nat.le_add_right _ _⟩
  by_cases hUp : c = [dot, dot]
  · simp only [if_neg hDot, if_pos hUp]
    refine ⟨congrArg some (popName_join h), fun d hd => h d ((dropLast_sublist st).subset hd), ?_⟩
    rcases eq_nil_or_concat st with rfl | ⟨st, d, rfl⟩
    · exact Nat.le_add_right _ _
    · simp [spell]
      omega
  · have hFull : ¬(join st ≠ [] ∧ pathMax - 1 ≤ (join st).length + 1) := fun hFull => by
      have := hJoin hFull.1
      omega
    simp only [if_neg hDot, if_neg hUp, if_neg hFull, if_neg (Nat.not_le.mpr hRoom), join_concat h]
    refine ⟨trivial, fun d hd => ?_, by simp [spell]⟩
    rcases mem_append.mp hd with hd | hd
    · exact h d hd
    · exact mem_singleton.mp hd ▸ ⟨hc, hDot, hUp⟩

theorem eval_join : eval (slash :: join st) = st := by
  have hNames : names (slash :: join st) = st := by
    rcases eq_or_ne st [] with rfl | hNe
    · rfl
    · rw [names_slash, names, join, splitOn_intercalate slash (fun c hc => (h c hc).1.2) hNe]
      exact filter_eq_self.mpr fun c hc => decide_eq_true (h c hc).1.1
  rw [eval, hNames, foldl_enter h, nil_append]

end

/-- The rest of the buffer is never shorter than what its names add, so no second check of a length
fails. -/
theorem normLoop_eq (n : ℕ) (hn : l.length ≤ n) (hHead : l = [] ∨ l.head? = some slash)
    (h : Plain st) (hLen : (spell st).length + l.length < pathMax) :
    normLoop n l (join st) = some (join ((names l).foldl enter st)) ∧
    Plain ((names l).foldl enter st) ∧
      (spell ((names l).foldl enter st)).length < pathMax := by
  induction n generalizing l st with
  | zero =>
    obtain rfl := length_eq_zero_iff.mp (Nat.le_zero.mp hn)
    exact ⟨rfl, h, hLen⟩
  | succ n ih =>
    rw [names_eq, normLoop]
    dsimp only
    split_ifs with hName
    · exact ⟨rfl, h, (Nat.le_add_right _ _).trans_lt hLen⟩
    · have hShort : (l.dropWhile (· = slash)).length < l.length := by
        rcases hHead with rfl | hHead
        · exact absurd rfl hName
        · obtain ⟨l, rfl⟩ := head?_eq_some_iff.mp hHead
          simpa using Nat.lt_succ_of_le (dropWhile_sublist (· = slash)).length_le
      generalize l.dropWhile (· = slash) = rest at *
      have hCut := congrArg length (takeWhile_append_dropWhile (p := fun c => decide (c ≠ slash))
        (l := rest))
      rw [length_append] at hCut
      obtain ⟨hAdd, hPlain, hLess⟩ := addName_join h ⟨hName, notMem_takeWhile⟩ (by omega)
      rw [hAdd, foldl_cons, Option.bind_some]
      refine ih (by omega) ?_ hPlain (by omega)
      cases hTail : rest.dropWhile (· ≠ slash) with
      | nil => exact .inl rfl
      | cons x t => exact .inr (congrArg some (slash_of_dropWhile hTail))

theorem eval_spec (hLen : (slash :: l).length < pathMax) :
    normLoop (slash :: l).length (slash :: l) [] = some (join (eval (slash :: l))) ∧
      Plain (eval (slash :: l)) ∧ (slash :: join (eval (slash :: l))).length < pathMax := by
  have hNil : Plain [] := fun _ h => absurd h not_mem_nil
  obtain ⟨hLoop, hPlain, hLess⟩ := normLoop_eq (l := slash :: l) _ le_rfl (.inr rfl) hNil
    (by simpa [spell] using hLen)
  refine ⟨hLoop, hPlain, ?_⟩
  rcases eq_or_ne (eval (slash :: l)) [] with hNil | hNe
  · rw [hNil]
    decide
  · rwa [← spell_eq hNe]

theorem pathNorm_eq (h : splice base path = slash :: l) : pathNorm base path =
    if (slash :: l).length < pathMax then some (slash :: join (eval (slash :: l))) else none := by
  rw [pathNorm, spliceBuf_eq, h, fill, length_nil, Nat.zero_add, nil_append]
  split_ifs with hFits hLen hLen
  · rw [Option.bind_some, (eval_spec hLen).1, Option.map_some]
  · exact absurd (Nat.lt_succ_of_le hFits) hLen
  · exact absurd (Nat.le_of_lt_succ hLen) hFits
  · rfl

/-- `path_norm` gives a name exactly when the text that it walks fits its buffer: the canonical path
of the names that the text leads to.  It gives such a path back as it is. -/
theorem pathNorm_canonical (base path : Path) (hBase : Canonical base) :
    pathNorm base path = (if (splice base path).length < pathMax then
      some (slash :: join (eval (splice base path))) else none) ∧
    ∀ out, pathNorm base path = some out → Canonical out ∧ out.length < pathMax ∧
      ∀ base', pathNorm base' out = some out := by
  obtain ⟨l, hl⟩ : ∃ l, splice base path = slash :: l := by
    obtain ⟨st, -, rfl⟩ := hBase
    unfold splice
    split_ifs with hAbs
    · exact head?_eq_some_iff.mp hAbs
    all_goals exact ⟨_, rfl⟩
  rw [pathNorm_eq hl, hl]
  refine ⟨rfl, fun out hOut => ?_⟩
  split_ifs at hOut with hLen
  cases hOut
  obtain ⟨-, hPlain, hLess⟩ := eval_spec hLen
  refine ⟨⟨_, hPlain, rfl⟩, hLess, fun base' => ?_⟩
  have hSame : splice base' (slash :: join (eval (slash :: l))) = slash :: _ := if_pos rfl
  rw [pathNorm_eq hSame, if_pos hLess, eval_join hPlain]

theorem pathNorm_canonical_up : Canonical [slash] ∧
    pathNorm [slash] [dot, dot, slash, dot, slash, slash, 97] = some [slash, 97] := by
  have hRoot : Canonical [slash] := ⟨[], fun _ h => absurd h not_mem_nil, rfl⟩
  exact ⟨hRoot, (pathNorm_canonical _ _ hRoot).1.trans (by decide)⟩

end Gnos.Vfs
