import Gnos.Tty.Pty

/-! Canonical reads of the terminals of `src/drivers/tty/tty_core.c`.  Completed lines go byte by
byte through a ring in which only an end of file on an empty line leaves a mark.  Echo and wakeups
are left out, and a read is taken where its wait is over. -/

namespace Gnos.Tty

open ProofKit List

def lineMax : ℕ := 256
def ringSize : ℕ := 1024

/-- `none` in the ring is `RING_EOF`; one place of the ring stays free. -/
structure Vt where
  tio : Termios
  ring : List (Option Byte)
  line : List Byte
  fgPgid : ℕ
  raised : List (ℕ × Sig)

/-- Software flow control swallows its two characters. -/
def Termios.swallows (t : Termios) (c : Byte) : Bool := t.ixon && (c == t.vstop || c == t.vstart)

def Termios.ends (t : Termios) (c : Byte) : Prop := c = nl ∨ t.veol ≠ 0 ∧ c = t.veol

instance (t : Termios) (c : Byte) : Decidable (t.ends c) := inferInstanceAs (Decidable (_ ∨ _))

namespace Vt

variable (v : Vt)

def ringPut (c : Option Byte) : Vt :=
  if v.ring.length = ringSize - 1 then v else { v with ring := v.ring ++ [c] }

def lineFlush (withNewline : Bool) : Vt :=
  { (v.line.map some ++ if withNewline then [some nl] else []).foldl ringPut v with line := [] }

/-- `proc_signal_group` for a key of `ISIG`. -/
def raise (c : Byte) : List (ℕ × Sig) :=
  if v.fgPgid = 0 then []
  else [(v.fgPgid, if c = v.tio.vintr then .int else if c = v.tio.vquit then .quit else .tstp)]

def vtInputChar (c : Byte) : Vt :=
  match v.tio.mapInput c with
  | none => v
  | some c =>
    if v.tio.signals c then { v with line := [], raised := v.raised ++ v.raise c }
    else if v.tio.swallows c then v
    else if !v.tio.icanon then v.ringPut (some c)
    else if c = v.tio.veof then if v.line = [] then v.ringPut none else v.lineFlush false
    else if c = v.tio.verase then { v with line := v.line.dropLast }
    else if c = v.tio.vkill then { v with line := [] }
    else if v.tio.ends c then v.lineFlush true
    else if v.line.length < lineMax - 1 then { v with line := v.line ++ [c] }
    else v

/-- The loop at the end of `vt_read`: what it takes out of the ring, and the rest. -/
def drain (canon : Bool) : ℕ → List (Option Byte) → List Byte × List (Option Byte)
  | 0, r => ([], r)
  | _, [] => ([], [])
  | _, none :: r => ([], r)
  | n + 1, some c :: r =>
    if canon ∧ c = nl then ([c], r) else (c :: (drain canon n r).1, (drain canon n r).2)

/-- `vt_read`; a canonical read waits for the ring to hold something. -/
def vtRead (len : ℕ) : Option (List Byte) × Vt :=
  if len = 0 then (some [], v)
  else if v.tio.icanon ∧ v.ring = [] then (none, v)
  else (some (drain v.tio.icanon len v.ring).1,
    { v with ring := (drain v.tio.icanon len v.ring).2 })

end Vt

/-- The line being typed, and the lines that are complete but not yet read. -/
structure Lines where
  line : List Byte
  ready : List (List Byte)

variable (l : List Byte)

def eraseWord : List Byte :=
  ((l.reverse.dropWhile (· == 32)).dropWhile (· != 32)).reverse

namespace Lines

def input (t : Termios) (s : Lines) (c : Byte) : Lines :=
  match t.mapInput c with
  | none => s
  | some c =>
    if t.signals c then { s with line := [] }
    else if t.swallows c then s
    else if c = t.veof then ⟨[], s.ready ++ [s.line]⟩
    else if c = t.verase then { s with line := s.line.dropLast }
    else if c = t.vkill then { s with line := [] }
    else if t.vwerase ≠ 0 ∧ c = t.vwerase then { s with line := eraseWord s.line }
    else if t.ends c then ⟨[], s.ready ++ [s.line ++ [c]]⟩
    else { s with line := s.line ++ [c] }

/-- A read gives the front of the first line; an empty line is an end of file. -/
def read (s : Lines) (len : ℕ) : Option (List Byte) × Lines :=
  if len = 0 then (some [], s)
  else match s.ready with
    | [] => (none, s)
    | l :: ls => (some (l.take len),
        { s with ready := if l.length ≤ len then ls else l.drop len :: ls })

end Lines

inductive VtOp where
  | type (c : Byte)
  | read (len : ℕ)

/-- A terminal beside what its reader should see. -/
structure Desk where
  vt : Vt
  lines : Lines

namespace Desk

def exec (d : Desk) : VtOp → Desk
  | .type c => ⟨d.vt.vtInputChar c, d.lines.input d.vt.tio c⟩
  | .read len => ⟨(d.vt.vtRead len).2, (d.lines.read len).2⟩

def Agrees (d : Desk) : VtOp → Prop
  | .type _ => True
  | .read len => (d.vt.vtRead len).1 = (d.lines.read len).1

/-- No unread line without a newline is last in the ring, and there is room for `n` more. -/
def Room (v : Vt) (n : ℕ) : Prop :=
  (∀ x ∈ v.ring.getLast?, x = none ∨ x = some nl) ∧ v.ring.length + n < ringSize

/-- A line is completed only where it fits and is kept apart from the one before it, by a newline if
not by an end of file; it is never too long, and nothing is typed to erase a word. -/
def Careful (d : Desk) : VtOp → Prop
  | .read _ => True
  | .type c =>
    let t := d.vt.tio
    match t.mapInput c with
    | none => True
    | some c => t.signals c = false → t.swallows c = false →
      if c = t.veof then Room d.vt (max d.vt.line.length 1)
      else c ≠ t.verase → c ≠ t.vkill → ¬(t.vwerase ≠ 0 ∧ c = t.vwerase) ∧
        if t.ends c then c = nl ∧ Room d.vt (d.vt.line.length + 1)
        else d.vt.line.length < lineMax - 1

instance (v : Vt) (n : ℕ) : Decidable (Room v n) := inferInstanceAs (Decidable (_ ∧ _))

instance (d : Desk) (op : VtOp) : Decidable (d.Careful op) := by
  cases op <;> dsimp only [Careful]
  · split <;> infer_instance
  · infer_instance

end Desk

def places : List (Option Byte) := if l = [] then [none] else l.map some

/-- An end of file, or a line up to its newline. -/
def Whole : Prop := l = [] ∨ ∃ m, nl ∉ m ∧ l = m ++ [nl]

/-- Only the last line may lack its newline. -/
def Apart : List (List Byte) → Prop
  | [] => True
  | l :: ls => (Whole l ∨ nl ∉ l ∧ ls = []) ∧ Apart ls

theorem apart_concat {ls : List (List Byte)} {l : List Byte} (h : ∀ l ∈ ls, Whole l)
    (hl : Whole l ∨ nl ∉ l) : Apart (ls ++ [l]) := by
  induction ls with
  | nil => exact ⟨hl.imp_right (⟨·, rfl⟩), trivial⟩
  | cons l' ls ih => exact ⟨.inl (h l' mem_cons_self), ih fun l hl => h l (mem_cons_of_mem _ hl)⟩

theorem places_ne_nil : places l ≠ [] := by
  unfold places
  split <;> simp [*]

theorem whole_of_last {ls : List (List Byte)} (h : Apart ls)
    (hLast : ∀ x ∈ (ls.flatMap places).getLast?, x = none ∨ x = some nl) : ∀ l ∈ ls, Whole l := by
  induction ls with
  | nil => simp
  | cons l ls ih =>
    obtain ⟨hl | ⟨hl, rfl⟩, hRest⟩ := h
    · refine forall_mem_cons.mpr ⟨hl, ih hRest fun x hx => hLast x ?_⟩
      rw [flatMap_cons, Option.mem_def, getLast?_append, hx]
      rfl
    · refine forall_mem_cons.mpr ⟨.inl (by_contra fun hNe => ?_), by simp⟩
      have hEnd := hLast (some (l.getLast hNe)) (by simp [places, hNe, getLast?_eq_some_getLast])
      simp only [reduceCtorEq, Option.some.injEq, false_or] at hEnd
      exact hl (hEnd ▸ getLast_mem hNe)

theorem drain_map {m : List Byte} (hm : nl ∉ m) (n : ℕ) (r : List (Option Byte)) :
    Vt.drain true n (m.map some ++ r) = (m.take n ++ (Vt.drain true (n - m.length) r).1,
        (m.drop n).map some ++ (Vt.drain true (n - m.length) r).2) := by
  induction m generalizing n with
  | nil => simp
  | cons c m ih =>
    cases n with
    | zero => simp [Vt.drain]
    | succ n =>
      have hc : c ≠ nl := fun hc => hm (hc ▸ mem_cons_self)
      simp [Vt.drain, hc, ih (fun h => hm (mem_cons_of_mem c h)) n]

/-- What a read of `n` bytes leaves of the lines. -/
def rest (ls : List (List Byte)) (n : ℕ) : List (List Byte) :=
  if l.length ≤ n then ls else l.drop n :: ls

/-- A read takes the front of the first line, and leaves the places of the rest. -/
theorem drain_places {l : List Byte} {ls : List (List Byte)} (h : Apart (l :: ls)) {n : ℕ}
    (hn : n ≠ 0) :
    Vt.drain true n ((l :: ls).flatMap places) = (l.take n, (rest l ls n).flatMap places) ∧
      Apart (rest l ls n) := by
  have hMap {m : List Byte} (hm : m ≠ []) : places m = m.map some := if_neg hm
  rw [flatMap_cons]
  obtain ⟨(rfl | ⟨m, hm, rfl⟩) | ⟨hl, rfl⟩, hRest⟩ := h
  · obtain ⟨n, rfl⟩ := Nat.exists_eq_succ_of_ne_zero hn
    exact ⟨rfl, hRest⟩
  · rw [hMap (by simp), map_append, append_assoc, drain_map hm]
    unfold rest
    split_ifs with hLen
    · have hm : m.length < n := Nat.lt_of_succ_le (by simpa using hLen)
      obtain ⟨k, hk⟩ : ∃ k, n - m.length = k + 1 := ⟨n - m.length - 1, by omega⟩
      rw [take_of_length_le hLen, hk, take_of_length_le hm.le, drop_eq_nil_of_le hm.le]
      exact ⟨rfl, hRest⟩
    · have hn : n ≤ m.length := Nat.le_of_lt_succ (by simpa using hLen)
      rw [take_append_of_le_length hn, drop_append_of_le_length hn, Nat.sub_eq_zero_of_le hn,
        flatMap_cons, hMap (by simp), map_append, append_assoc]
      exact ⟨by simp [Vt.drain], .inl (.inr ⟨_, fun h => hm (mem_of_mem_drop h), rfl⟩), hRest⟩
  · rcases eq_or_ne l [] with rfl | hNe
    · obtain ⟨n, rfl⟩ := Nat.exists_eq_succ_of_ne_zero hn
      exact ⟨rfl, hRest⟩
    · have hEnd (k : ℕ) : Vt.drain true k [] = ([], []) := by cases k <;> rfl
      rw [hMap hNe, flatMap_nil, drain_map hl, hEnd, append_nil, append_nil]
      unfold rest
      split_ifs with hLen
      · rw [drop_eq_nil_of_le hLen]
        exact ⟨rfl, hRest⟩
      · rw [flatMap_cons, hMap (by simpa using hLen), flatMap_nil, append_nil]
        exact ⟨rfl, .inr ⟨fun h => hl (mem_of_mem_drop h), rfl⟩, hRest⟩

theorem foldl_ringPut {v : Vt} {xs : List (Option Byte)}
    (h : v.ring.length + xs.length < ringSize) :
    xs.foldl Vt.ringPut v = { v with ring := v.ring ++ xs } := by
  induction xs generalizing v with
  | nil => simp
  | cons x xs ih =>
    rw [length_cons] at h
    rw [foldl_cons, Vt.ringPut, if_neg (by omega), ih (by simp; omega), append_assoc]
    rfl

namespace Desk

structure Meets (d : Desk) : Prop where
  canon : d.vt.tio.icanon
  line : d.vt.line = d.lines.line
  clean : nl ∉ d.vt.line
  apart : Apart d.lines.ready
  ring : d.vt.ring = d.lines.ready.flatMap places

variable {d : Desk}

/-- `VEOF` puts the places of the line typed so far into the ring. -/
theorem flush_eof (v : Vt) : (if v.line = [] then v.ringPut none else v.lineFlush false) =
    { (places v.line).foldl Vt.ringPut v with line := [] } := by
  unfold places
  split_ifs with hNil
  · have hLine : { v with line := [] } = v := by rw [← hNil]
    rw [foldl_cons, foldl_nil, Vt.ringPut]
    split
    · exact hLine.symm
    · rw [hNil]
  · rw [Vt.lineFlush, if_neg Bool.false_ne_true, append_nil]

theorem length_places : (places l).length = max l.length 1 := by
  unfold places
  split
  · simp [*]
  · have := length_pos_iff.mpr ‹l ≠ []›
    simp only [length_map]
    omega

section

variable (h : Meets d)
include h

/-- A line that is completed where there is room. -/
theorem Meets.complete {l : List Byte} (hRoom : Room d.vt (places l).length)
    (hl : Whole l ∨ nl ∉ l) :
    Meets ⟨{ (places l).foldl Vt.ringPut d.vt with line := [] }, ⟨[], d.lines.ready ++ [l]⟩⟩ := by
  obtain ⟨hLast, hLen⟩ := hRoom
  rw [foldl_ringPut hLen]
  rw [h.ring] at hLast
  exact ⟨h.canon, rfl, by simp, apart_concat (whole_of_last h.apart hLast) hl, by simp [h.ring]⟩

theorem Meets.setLine {l : List Byte} (hl : nl ∉ l) :
    Meets ⟨{ d.vt with line := l }, { d.lines with line := l }⟩ :=
  ⟨h.canon, rfl, hl, h.apart, h.ring⟩

theorem Meets.type {c : Byte} (hOp : d.Careful (.type c)) : Meets (d.exec (.type c)) := by
  simp only [Careful, exec, Vt.vtInputChar, Lines.input, ← h.line] at hOp ⊢
  cases hc : d.vt.tio.mapInput c with
  | none => exact h
  | some c =>
    simp only [hc] at hOp ⊢
    split
    · exact ⟨h.canon, rfl, by simp, h.apart, h.ring⟩
    rename_i hSig
    split
    · exact h
    rename_i hFlow
    rw [h.canon, if_neg (by simp)]
    have hOp := hOp (by simpa using hSig) (by simpa using hFlow)
    split
    · rename_i hEof
      rw [if_pos hEof, ← length_places] at hOp
      rw [flush_eof]
      exact h.complete hOp (.inr h.clean)
    rename_i hEof
    rw [if_neg hEof] at hOp
    split
    · exact h.setLine fun hMem => h.clean (mem_of_mem_dropLast hMem)
    rename_i hErase
    split
    · exact h.setLine (by simp)
    rename_i hKill
    obtain ⟨hWord, hOp⟩ := hOp hErase hKill
    rw [if_neg hWord]
    split
    · rename_i hEnds
      rw [if_pos hEnds] at hOp
      obtain ⟨rfl, hRoom⟩ := hOp
      have hPlaces : places (d.vt.line ++ [nl]) = d.vt.line.map some ++ [some nl] := by
        simp [places]
      have hLine := h.complete (l := d.vt.line ++ [nl]) (by simpa [hPlaces] using hRoom)
        (.inl (.inr ⟨_, h.clean, rfl⟩))
      rwa [hPlaces] at hLine
    · rename_i hEnds
      rw [if_neg hEnds] at hOp
      rw [if_pos hOp]
      have hc : nl ≠ c := fun hc => hEnds (.inl hc.symm)
      exact h.setLine (by simp [h.clean, hc])

theorem Meets.read (len : ℕ) : d.Agrees (.read len) ∧ Meets (d.exec (.read len)) := by
  simp only [Agrees, exec, Vt.vtRead, Lines.read, h.canon]
  by_cases hLen : len = 0
  · simp only [if_pos hLen]
    exact ⟨trivial, h⟩
  · have hRing := h.ring
    have hApart := h.apart
    simp only [if_neg hLen]
    cases hReady : d.lines.ready with
    | nil =>
      rw [hReady] at hRing
      rw [if_pos ⟨trivial, hRing⟩]
      exact ⟨rfl, h⟩
    | cons l ls =>
      rw [hReady] at hRing hApart
      have hNe : d.vt.ring ≠ [] := by simp [hRing, places_ne_nil]
      obtain ⟨hDrain, hRest⟩ := drain_places hApart hLen
      rw [if_neg (by simp [hNe]), hRing, hDrain]
      exact ⟨rfl, h.canon, h.line, h.clean, hRest, rfl⟩

theorem Meets.exec {op : VtOp} (hOp : d.Careful op) : Meets (d.exec op) := by
  cases op with
  | type c => exact h.type hOp
  | read len => exact (h.read len).2

end

/-- A terminal in canonical mode that nothing was typed at. -/
def Start (d : Desk) : Prop :=
  d.vt.tio.icanon ∧ d.vt.ring = [] ∧ d.vt.line = [] ∧ d.lines = ⟨[], []⟩

/-- In every run of careful typing every read returns what it should. -/
theorem reads_agree {op : VtOp} (hRun : Reaches Start Careful Desk.exec d) : d.Agrees op := by
  have h : Meets d := by
    refine hRun.invariant (fun d hd => ?_) fun _ _ h hOp => h.exec hOp
    obtain ⟨hCanon, hRing, hLine, hLines⟩ := hd
    exact ⟨hCanon, by rw [hLine, hLines], by simp [hLine], by rw [hLines]; trivial,
      by rw [hLines, hRing]; rfl⟩
  cases op with
  | type c => trivial
  | read len => exact (h.read len).1

def desk : Desk := ⟨⟨{ icanon := true }, [], [], 0, []⟩, ⟨[], []⟩⟩

/-- The line `ab`, an end of file, and the line `d` with its first letter erased; two bytes are
read. -/
def threeLines : List VtOp :=
  ([0x61, 0x62, nl, 4, 0x63, 0x7f, 0x64, nl] : List Byte).map .type ++ [.read 2, .read 9]

/-- What is read next is the end of file, though a line is there. -/
theorem reads_agree_line : (threeLines.foldl exec desk).Agrees (.read 9) ∧
    ((threeLines.foldl exec desk).vt.vtRead 9).1 = some [] := by
  refine ⟨reads_agree (Reaches.foldl (.start ⟨rfl, rfl, rfl, rfl⟩) threeLines ?_), by
    decide +kernel⟩
  decide +kernel

def merged : Desk := (([0x61, 4, 0x62, nl] : List Byte).map VtOp.type).foldl Desk.exec desk

/-- `a` and an end of file, then the line `b`: one read returns both lines. -/
theorem lines_merged : (merged.vt.vtRead 9).1 = some [0x61, 0x62, nl] ∧
    (merged.lines.read 9).1 = some [0x61] := by
  decide

end Desk

end Gnos.Tty
