import Gnos.Tty.Console

/-! The line disciplines of the pseudo-terminals and of the console, fed with the same bytes. -/

namespace Gnos.Tty

open ProofKit List

/-- No control character that is looked at is disabled, as 0. -/
def Termios.AllSet (t : Termios) : Prop :=
  (t.isig → t.vintr ≠ 0 ∧ t.vquit ≠ 0 ∧ t.vsusp ≠ 0) ∧ (t.ixon → t.vstop ≠ 0 ∧ t.vstart ≠ 0) ∧
    (t.icanon → t.veof ≠ 0 ∧ t.verase ≠ 0 ∧ t.vkill ≠ 0 ∧ t.veol ≠ 0)

instance (t : Termios) : Decidable t.AllSet := by
  unfold Termios.AllSet
  infer_instance

/-- A byte 0 comes only if no control character is disabled; any other that sends no signal is none
of flow control, ends a line only as a newline, and while an end of file is pending (`eof`) it is
queued behind it in no case. -/
def Termios.Common (t : Termios) (eof : Bool) (c : Byte) : Prop :=
  (c = 0 → t.AllSet) ∧ (t.signals c = false →
    t.swallows c = false ∧
    (t.icanon → c = t.veol → c = t.veof ∨ c = t.verase ∨ c = t.vkill ∨ c = nl) ∧
    (eof → t.icanon ∧ c ≠ t.veof ∧ c ≠ nl))

instance (t : Termios) (eof : Bool) (c : Byte) : Decidable (t.Common eof c) := by
  unfold Termios.Common
  infer_instance

structure Twins where
  pty : Pty
  vt : Vt

namespace Twins

def exec (s : Twins) (c : Byte) : Twins := ⟨s.pty.ptyInput c, s.vt.vtInputChar c⟩

/-- Both are set alike, with the same foreground group, and nothing was typed. -/
def Start (s : Twins) : Prop :=
  s.vt = ⟨s.pty.tio, [], [], s.pty.fgPgid, []⟩ ∧ s.pty.raised = [] ∧ s.pty.line = [] ∧
    s.pty.eofPending = false ∧ s.pty.stopped = false ∧
    s.pty.toSlave.count = 0 ∧ s.pty.toSlave.head = 0 ∧ s.pty.toSlave.tail = 0

/-- What the reader of a pseudo-terminal finds: the characters, and an end of file after them. -/
def queue (p : Pty) : List (Option Byte) :=
  (p.toSlave.contents ptyRing).map some ++ if p.eofPending then [none] else []

/-- The readers find the same characters and ends of file, the same signals were sent, the lines are
the same, and neither is stopped. -/
structure Same (s : Twins) : Prop where
  queue : queue s.pty = s.vt.ring
  raised : s.pty.raised = s.vt.raised
  line : s.pty.line = s.vt.line
  stopped : s.pty.stopped = false

/-- A byte 0 is a character like any other to both: it matches no control character. -/
def NulPlain (s : Twins) (c : Byte) : Prop :=
  s.vt.tio.mapInput c = some 0 →
    if s.vt.tio.icanon then
      (s.exec c).pty.line = s.pty.line ++ [0] ∧ queue (s.exec c).pty = queue s.pty ∧
        (s.exec c).vt = { s.vt with line := s.vt.line ++ [0] }
    else
      (s.exec c).pty.line = s.pty.line ∧ queue (s.exec c).pty = queue s.pty ++ [some 0] ∧
        (s.exec c).vt = { s.vt with ring := s.vt.ring ++ [some 0] }

/-- There is room in the ring and the line of the console, and the byte is one to both. -/
def Mild (s : Twins) (c : Byte) : Prop :=
  s.vt.ring.length + s.vt.line.length + 1 < ringSize ∧ s.vt.line.length < lineMax - 1 ∧
    ∀ c' ∈ s.vt.tio.mapInput c, s.vt.tio.Common s.pty.eofPending c'

instance (s : Twins) (c : Byte) : Decidable (s.Mild c) := inferInstanceAs (Decidable (_ ∧ _ ∧ _))

variable {s : Twins} {p : Pty} {v : Vt}

structure Alike (s : Twins) : Prop extends Same s where
  tio : s.pty.tio = s.vt.tio
  fg : s.pty.fgPgid = s.vt.fgPgid
  fits : s.pty.toSlave.Fits ptyRing

theorem Alike.out (h : Alike ⟨p, v⟩) (bytes : List Byte) : Alike ⟨p.out bytes, v⟩ := by
  unfold Pty.out
  split
  · exact h
  · exact { h with }

theorem Alike.setLine (h : Alike s) (l : List Byte) :
    Alike ⟨{ s.pty with line := l }, { s.vt with line := l }⟩ :=
  { h with line := rfl }

theorem Alike.raise (h : Alike s) (c : Byte) :
    Alike ⟨{ s.pty with raised := s.pty.raised ++ s.pty.raise c },
      { s.vt with raised := s.vt.raised ++ s.vt.raise c }⟩ := by
  refine { h with raised := ?_ }
  show s.pty.raised ++ s.pty.raise c = s.vt.raised ++ s.vt.raise c
  rw [h.raised, Pty.raise, Vt.raise, h.fg, h.tio]

/-- Bytes that both have room for are queued alike, if no end of file is pending. -/
theorem Alike.put (h : Alike s) (hEof : s.pty.eofPending = false) (xs : List Byte)
    (hRoom : s.vt.ring.length + xs.length < ringSize) :
    Alike ⟨{ s.pty with toSlave := xs.foldl ringPut s.pty.toSlave },
      (xs.map some).foldl Vt.ringPut s.vt⟩ := by
  obtain ⟨hFits, hContents⟩ := fits_put h.fits xs
  have hRing : (s.pty.toSlave.contents ptyRing).map some = s.vt.ring := by
    rw [← h.queue, queue, hEof, if_neg Bool.false_ne_true, append_nil]
  have hCount : s.pty.toSlave.count = s.vt.ring.length := by
    rw [← hRing, length_map, RingBuf.length_contents ptyRing]
  have hTake : xs.take (ptyRing - s.pty.toSlave.count) = xs := by
    rw [take_eq_self_iff]
    unfold ringSize at hRoom
    unfold ptyRing
    omega
  rw [foldl_ringPut (by simpa using hRoom)]
  refine ⟨⟨?_, h.raised, h.line, h.stopped⟩, h.tio, h.fg, hFits⟩
  show (_ : List Byte).map some ++ (if s.pty.eofPending then _ else _) = s.vt.ring ++ xs.map some
  rw [hContents, hTake, map_append, hRing, hEof, if_neg Bool.false_ne_true, append_nil]

theorem Alike.exec (h : Alike s) {c : Byte} (hMild : s.Mild c) : Alike (s.exec c) := by
  obtain ⟨hRoom, hLine, hMild⟩ := hMild
  refine Alike.out ?_ _
  obtain ⟨⟨t, fg, raised, slave, master, line, eof, stopped, pkt, slaveOpen, masterOpen⟩,
    ⟨_, ring, _, _, _⟩⟩ := s
  obtain rfl : t = _ := h.tio
  obtain rfl : line = _ := h.line
  obtain rfl : stopped = false := h.stopped
  dsimp only at hRoom hLine hMild
  simp only [Pty.discipline, Vt.vtInputChar]
  cases hc : t.mapInput c with
  | none => exact h
  | some c =>
    dsimp only
    by_cases hSig : t.signals c
    · rw [if_pos hSig, if_pos hSig]
      exact (h.raise c).setLine []
    obtain ⟨-, hPlain⟩ := hMild c hc
    obtain ⟨hFlow, hEnds, hPending⟩ := hPlain (by simpa using hSig)
    have hNone : ¬(t.icanon ∧ c ≠ t.veof ∧ c ≠ nl) → eof = false := fun hNot =>
      Bool.eq_false_iff.mpr fun hEof => hNot (hPending hEof)
    have hStop : ¬(t.ixon ∧ c = t.vstop ∧ !false) := by
      rintro ⟨hIxon, hStop, -⟩
      simp [Termios.swallows, hIxon, hStop] at hFlow
    have hStart : ¬(t.ixon ∧ c = t.vstart ∧ false) := by simp
    have hPass : ¬(t.swallows c = true) := by simp [hFlow]
    have hAdd : ∀ p : Pty, p.line = line → p.lineAdd c = { p with line := line ++ [c] } := by
      rintro p rfl
      exact if_pos (hLine.trans (by decide))
    rw [if_neg hSig, if_neg hSig, if_neg hStop, if_neg hStart, if_neg hPass]
    by_cases hCanon : (!t.icanon) = true
    · rw [if_pos hCanon, if_pos hCanon]
      refine h.put (hNone fun hAll => ?_) [c] (by simp only [length_singleton]; omega)
      simp [hAll.1] at hCanon
    rw [if_neg hCanon, if_neg hCanon]
    by_cases hEof : c = t.veof
    · rw [if_pos hEof, if_pos hEof]
      obtain rfl := hNone fun hAll => hAll.2.1 hEof
      by_cases hNil : line = []
      · rw [if_pos hNil, if_pos hNil, Vt.ringPut, if_neg (by dsimp only; omega)]
        have hQueue := h.queue
        refine { h with queue := ?_, stopped := rfl, line := rfl }
        simpa [queue] using hQueue
      · rw [if_neg hNil, if_neg hNil, Vt.lineFlush, if_neg Bool.false_ne_true, append_nil]
        exact (h.put rfl line (by dsimp only; omega)).setLine []
    rw [if_neg hEof, if_neg hEof]
    by_cases hErase : c = t.verase
    · rw [if_pos hErase, if_pos hErase]
      exact h.setLine _
    rw [if_neg hErase, if_neg hErase]
    by_cases hKill : c = t.vkill
    · rw [if_pos hKill, if_pos hKill]
      exact h.setLine _
    rw [if_neg hKill, if_neg hKill, hAdd _ rfl]
    by_cases hNl : c = nl
    · rw [if_pos (.inl hNl), if_pos (.inl hNl), Vt.lineFlush, if_pos rfl, ← map_singleton,
        ← map_append, ← hNl]
      exact (h.put (hNone fun hAll => hAll.2.2 hNl) (line ++ [c])
        (by simpa [add_assoc] using hRoom)).setLine []
    · have hEol : c ≠ t.veol := fun hEol => by
        obtain h | h | h | h := hEnds (by simpa using hCanon) hEol
        exacts [hEof h, hErase h, hKill h, hNl h]
      rw [if_neg (by simp [hNl, hEol]), if_neg (by simp [Termios.ends, hNl, hEol]), if_pos hLine]
      exact h.setLine _

theorem signals_zero {t : Termios} (hSet : t.AllSet) : t.signals 0 = false := by
  cases hIsig : t.isig with
  | false => simp [Termios.signals, hIsig]
  | true =>
    obtain ⟨hInt, hQuit, hSusp⟩ := hSet.1 hIsig
    simp only [Termios.signals, beq_eq_false_iff_ne.mpr hInt.symm,
      beq_eq_false_iff_ne.mpr hQuit.symm, beq_eq_false_iff_ne.mpr hSusp.symm, Bool.or_false,
      Bool.and_false]

/-- The console takes a byte 0 for a character. -/
theorem vtInputChar_zero {c : Byte} (hc : s.vt.tio.mapInput c = some 0) (hMild : s.Mild c) :
    s.vt.vtInputChar c = if s.vt.tio.icanon then { s.vt with line := s.vt.line ++ [0] }
      else { s.vt with ring := s.vt.ring ++ [some 0] } := by
  obtain ⟨hRoom, hLine, hMild⟩ := hMild
  obtain ⟨hSet, hPlain⟩ := hMild 0 hc
  have hSig := signals_zero (hSet rfl)
  simp only [Vt.vtInputChar, hc]
  rw [if_neg (Bool.eq_false_iff.mp hSig), if_neg (Bool.eq_false_iff.mp (hPlain hSig).1)]
  cases hIcanon : s.vt.tio.icanon with
  | false => exact (if_pos rfl).trans (if_neg (by omega))
  | true =>
    obtain ⟨hEof, hErase, hKill, hEol⟩ := (hSet rfl).2.2 hIcanon
    have hEnds : ¬s.vt.tio.ends 0 := by
      rintro (hNl | ⟨-, hEq⟩)
      exacts [absurd hNl (by decide), hEol hEq.symm]
    rw [if_neg (by simp), if_neg hEof.symm, if_neg hErase.symm, if_neg hKill.symm, if_neg hEnds,
      if_pos hLine, if_pos rfl]

/-- The pseudo-terminal does the same, as the two are alike afterwards. -/
theorem Alike.nulPlain (h : Alike s) {c : Byte} (hMild : s.Mild c) : s.NulPlain c := by
  intro hc
  obtain ⟨⟨hQueue, -, hLine, -⟩, -, -⟩ := h.exec hMild
  have hVt : (s.exec c).vt = _ := vtInputChar_zero hc hMild
  rw [hQueue, hLine, hVt, h.queue, h.line]
  split <;> exact ⟨rfl, rfl, rfl⟩

/-- Along every sequence of mild bytes the two disciplines do the same. -/
theorem disciplines_agree (hRun : Reaches Start Mild Twins.exec s) :
    s.Same ∧ ∀ c, s.Mild c → s.NulPlain c := by
  have hAlike : Alike s := by
    refine hRun.invariant (fun s hs => ?_) fun s c h hMild => h.exec hMild
    obtain ⟨hVt, hRaised, hLine, hEof, hStopped, hCount, hHead, hTail⟩ := hs
    refine ⟨⟨?_, ?_, ?_, hStopped⟩, ?_, ?_, ⟨by decide, by omega, ?_, ?_⟩⟩
    · rw [hVt, queue, RingBuf.contents, hCount, hEof]
      rfl
    all_goals simp [hVt, hRaised, hLine, hHead, hTail, hCount, ptyRing]
  exact ⟨hAlike.toSame, fun c hMild => hAlike.nulPlain hMild⟩

def fresh (t : Termios) : Twins :=
  ⟨⟨t, 7, [], ⟨fun _ => 0, 0, 0, 0⟩, ⟨fun _ => 0, 0, 0, 0⟩, [], false, false, false, true, true⟩,
    ⟨t, [], [], 7, []⟩⟩

/-- A canonical terminal with `^C`, `^D`, erase `#` and kill `@`. -/
def cooked : Termios :=
  { icanon := true, isig := true, echo := true, vintr := 3, vquit := 28, vsusp := 26, veof := 4,
    verase := 35, vkill := 64, veol := 10 }

/-- `a#b` and a newline, `c` with `^C`, a byte 0, kill, and an end of file. -/
def typed : List Byte := [97, 35, 98, 10, 99, 3, 0, 64, 4]

theorem disciplines_agree_typed :
    (typed.foldl Twins.exec (fresh cooked)).Same ∧
      ∀ c, (typed.foldl Twins.exec (fresh cooked)).Mild c →
        (typed.foldl Twins.exec (fresh cooked)).NulPlain c := by
  refine disciplines_agree (Reaches.foldl (.start ?_) typed (by decide +kernel))
  exact ⟨rfl, rfl, rfl, rfl, rfl, rfl, rfl, rfl⟩

/-- With `VEOL` disabled, a byte 0 ends the line of a pseudo-terminal and is part of that of the
console. -/
theorem nul_ends_pty_line : ¬((fresh { icanon := true }).exec 0).Same :=
  fun h => absurd h.line (by decide)

end Twins

end Gnos.Tty
