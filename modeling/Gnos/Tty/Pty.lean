import Gnos.ProofKit.Ring
import Gnos.ProofKit.Runs

/-! The pseudo-terminals of `src/drivers/tty/pty.c`: the line discipline that the master writes
through, the output side of the slave and the ring the master reads from.  Wakeups are left out; a
call is taken where it returns.  Packet mode is as it was set before (`TIOCPKT` is no operation),
and `tcsets` stands for `TCSETS` and `TCSETSW`, without the flush of `TCSETSF`. -/

namespace Gnos.Tty

open ProofKit List

abbrev Byte := BitVec 8

def nl : Byte := 10
def cr : Byte := 13

/-- The signals of the keyboard, `SIGINT`, `SIGQUIT` and `SIGTSTP`. -/
inductive Sig
  | int | quit | tstp
  deriving DecidableEq

/-- What the line disciplines read of `termios_t`. -/
structure Termios where
  istrip : Bool := false
  igncr : Bool := false
  icrnl : Bool := false
  inlcr : Bool := false
  ixon : Bool := false
  opost : Bool := false
  onlcr : Bool := false
  ocrnl : Bool := false
  isig : Bool := false
  icanon : Bool := false
  echo : Bool := false
  echoe : Bool := false
  echok : Bool := false
  echoke : Bool := false
  echoctl : Bool := false
  vintr : Byte := 3
  vquit : Byte := 0x1c
  vsusp : Byte := 0x1a
  vstop : Byte := 0x13
  vstart : Byte := 0x11
  veof : Byte := 4
  verase : Byte := 0x7f
  vkill : Byte := 0x15
  vwerase : Byte := 0x17
  veol : Byte := 0

variable (t : Termios)

namespace Termios

/-- The input mapping of `c_iflag`; `IGNCR` drops a byte. -/
def mapInput (c : Byte) : Option Byte :=
  let c := if t.istrip then c &&& 0x7f else c
  if c = cr then if t.igncr then none else some (if t.icrnl then nl else c)
  else if c = nl then some (if t.inlcr then cr else c)
  else some c

def signals (c : Byte) : Bool := t.isig && (c == t.vintr || c == t.vquit || c == t.vsusp)

def echoChar (c : Byte) : List Byte :=
  if !t.echo then []
  else if t.echoctl ∧ c < 0x20 ∧ c ≠ nl ∧ c ≠ cr ∧ c ≠ 9 then [0x5e, c + 0x40]
  else if t.echoctl ∧ c = 0x7f then [0x5e, 0x3f]
  else [c]

def echoErase : List Byte := if t.echo && t.echoe then [8] else []

/-- What `pty_output` makes of a byte. -/
def post (c : Byte) : List Byte :=
  if !t.opost then [c]
  else if c = nl ∧ t.onlcr then [cr, nl]
  else if c = cr ∧ t.ocrnl then [nl]
  else [c]

/-- `ONLCR` puts a CR before a NL and `OCRNL` turns a CR into a NL, both under `OPOST`; any other
byte is put out as it is. -/
theorem post_eq_iff {c : Byte} {bytes : List Byte} : t.post c = bytes ↔
    t.opost ∧ t.onlcr ∧ c = nl ∧ bytes = [cr, nl] ∨ t.opost ∧ t.ocrnl ∧ c = cr ∧ bytes = [nl] ∨
      (t.opost → (t.onlcr → c ≠ nl) ∧ (t.ocrnl → c ≠ cr)) ∧ bytes = [c] := by
  have hNe : nl ≠ cr := by decide
  unfold post
  split_ifs <;> grind

end Termios

def ptyRing : ℕ := 4096
def ptyLine : ℕ := 4096

/-- `raised` notes the calls of `proc_signal_group`. -/
structure Pty where
  tio : Termios
  fgPgid : ℕ
  raised : List (ℕ × Sig)
  toSlave : RingBuf Byte
  toMaster : RingBuf Byte
  line : List Byte
  eofPending : Bool
  stopped : Bool
  pktmode : Bool
  slaveOpen : Bool
  masterOpen : Bool

inductive Err where
  | pipe | intr
  deriving DecidableEq

/-- What `pty_input` puts out for the master: the echo of a byte, or a status byte of packet
mode. -/
inductive Put where
  | echo (bytes : List Byte)
  | status (bytes : List Byte)

def Put.bytes : Put → List Byte
  | .echo bytes | .status bytes => bytes

def ringPut (r : RingBuf Byte) (b : Byte) : RingBuf Byte :=
  if r.count = ptyRing then r else r.push ptyRing b

namespace Pty

variable (p : Pty)

def out (bytes : List Byte) : Pty :=
  if p.stopped then p else { p with toMaster := bytes.foldl ringPut p.toMaster }

/-- The signal that a key of `ISIG` stands for goes to the foreground group, if there is one. -/
def raise (c : Byte) : List (ℕ × Sig) :=
  if p.fgPgid = 0 then []
  else [(p.fgPgid, if c = p.tio.vintr then .int else if c = p.tio.vquit then .quit else .tstp)]

def lineAdd (c : Byte) : Pty :=
  if p.line.length < ptyLine then { p with line := p.line ++ [c] } else p

def lineDeliver : Pty := { p with toSlave := p.line.foldl ringPut p.toSlave, line := [] }

/-- `pty_input` without the output, which comes after every change that it depends on. -/
def discipline (c : Byte) : Pty × Put :=
  match p.tio.mapInput c with
  | none => (p, .echo [])
  | some c =>
    if p.tio.signals c then
      ({ p with line := [], raised := p.raised ++ p.raise c },
        .echo (p.tio.echoChar c ++ if p.tio.echo then [nl] else []))
    else if p.tio.ixon ∧ c = p.tio.vstop ∧ !p.stopped then
      ({ p with stopped := true }, .status (if p.pktmode then [4] else []))
    else if p.tio.ixon ∧ c = p.tio.vstart ∧ p.stopped then
      ({ p with stopped := false }, .status (if p.pktmode then [8] else []))
    else if !p.tio.icanon then
      ({ p with toSlave := ringPut p.toSlave c }, .echo (p.tio.echoChar c))
    else if c = p.tio.veof then
      (if p.line = [] then { p with eofPending := true } else p.lineDeliver, .echo [])
    else if c = p.tio.verase then
      ({ p with line := p.line.dropLast }, .echo (if p.line = [] then [] else p.tio.echoErase))
    else if c = p.tio.vkill then
      ({ p with line := [] }, .echo (if p.tio.echoke then p.line.flatMap fun _ => p.tio.echoErase
        else if p.tio.echo && p.tio.echok then [nl] else []))
    else if c = nl ∨ c = p.tio.veol then ((p.lineAdd c).lineDeliver, .echo (p.tio.echoChar c))
    else (p.lineAdd c, .echo (p.tio.echoChar c))

def ptyInput (c : Byte) : Pty := (p.discipline c).1.out (p.discipline c).2.bytes

def ptyMasterWrite (buf : List Byte) : Except Err ℕ × Pty :=
  if !p.slaveOpen then (.error .pipe, p) else (.ok buf.length, buf.foldl ptyInput p)

/-- `pty_master_read`: the status byte of packet mode, if any, and the data.  A wait for output ends
with neither. -/
def ptyMasterRead (len : ℕ) : List Byte × List Byte × Pty :=
  let packet := p.pktmode && decide (1 < len)
  let r := p.toMaster.popN ptyRing (min (if packet then len - 2 else len) p.toMaster.count)
  if len = 0 ∨ p.toMaster.count = 0 then ([], [], p)
  else (if packet then [0] else [], r.1, { p with toMaster := r.2 })

/-- `pty_slave_write`; a wait for room ends with a signal or before the call returns. -/
def ptySlaveWrite (buf : List Byte) : Except Err ℕ × Pty :=
  if !p.masterOpen then (.error .pipe, p)
  else if ptyRing - 64 ≤ p.toMaster.count then (.error .intr, p)
  else (.ok buf.length, p.out (buf.flatMap p.tio.post))

end Pty

/-- A pseudo-terminal with what should have gone out to the master, and what it has read. -/
structure Session where
  pty : Pty
  sent : List Byte
  got : List Byte

/-- `type` is one byte of a `pty_master_write`, `tcxonc` stops and starts the output. -/
inductive PtyOp where
  | slaveWrite (buf : List Byte)
  | masterRead (len : ℕ)
  | type (c : Byte)
  | tcxonc (stop : Bool)
  | tcsets (tio : Termios)

namespace Session

def start (p : Pty) : Session := ⟨{ p with toMaster := ⟨p.toMaster.buf, 0, 0, 0⟩ }, [], []⟩

def exec (s : Session) : PtyOp → Session
  | .slaveWrite buf =>
    let r := s.pty.ptySlaveWrite buf
    -- the image of the bytes that the call counts as written
    { s with
      pty := r.2
      sent := s.sent ++ (buf.take (r.1.toOption.getD 0)).flatMap s.pty.tio.post }
  | .masterRead len =>
    let r := s.pty.ptyMasterRead len
    { s with pty := r.2.2, got := s.got ++ r.2.1 }
  | .type c =>
    { s with
      pty := s.pty.ptyInput c
      sent := s.sent ++ match (s.pty.discipline c).2 with | .echo bytes => bytes | .status _ => [] }
  | .tcxonc stop => { s with pty := { s.pty with stopped := stop } }
  | .tcsets tio => { s with pty := { s.pty with tio := tio } }

/-- What the master has read and can still read is what was sent. -/
def Exact (s : Session) : Prop := s.got ++ s.pty.toMaster.contents ptyRing = s.sent

/-- The output is not stopped and the ring has room, or there is nothing to put out. -/
def Takes (p : Pty) (bytes : List Byte) : Prop :=
  bytes = [] ∨ p.stopped = false ∧ p.toMaster.count + bytes.length ≤ ptyRing

/-- A write that is counted and an echo have to be taken whole, a status byte must not be. -/
def Careful (s : Session) : PtyOp → Prop
  | .slaveWrite buf => s.pty.masterOpen → s.pty.toMaster.count < ptyRing - 64 →
      Takes s.pty (buf.flatMap s.pty.tio.post)
  | .type c =>
    match s.pty.discipline c with
    | (p, .echo bytes) => Takes p bytes
    | (p, .status bytes) => bytes = [] ∨ p.stopped ∨ p.toMaster.count = ptyRing
  | _ => True

end Session

theorem fits_put {r : RingBuf Byte} (h : r.Fits ptyRing) (bytes : List Byte) :
    (bytes.foldl ringPut r).Fits ptyRing ∧
      (bytes.foldl ringPut r).contents ptyRing =
        r.contents ptyRing ++ bytes.take (ptyRing - r.count) := by
  induction bytes generalizing r with
  | nil => exact ⟨h, by simp⟩
  | cons b bytes ih =>
    have hCount := h.count
    rw [foldl_cons, ringPut]
    split_ifs with hFull
    · simpa [hFull] using ih h
    · obtain ⟨hPush, hPushed⟩ := h.push (by omega) b
      obtain ⟨hFits, hAll⟩ := ih hPush
      have hRoom : ptyRing - r.count = ptyRing - (r.push ptyRing b).count + 1 := by
        simp only [RingBuf.push]
        omega
      rw [hAll, hPushed, hRoom, take_succ_cons, append_assoc]
      exact ⟨hFits, rfl⟩

theorem lineAdd_toMaster (p : Pty) (c : Byte) : (p.lineAdd c).toMaster = p.toMaster := by
  unfold Pty.lineAdd
  split <;> rfl

theorem discipline_toMaster (p : Pty) (c : Byte) : (p.discipline c).1.toMaster = p.toMaster := by
  unfold Pty.discipline
  cases p.tio.mapInput c with
  | none => rfl
  | some c =>
    dsimp only
    repeat' split
    all_goals first | rfl | exact lineAdd_toMaster p c

/-- The part of the bytes put out that reaches the ring. -/
def Pty.kept (p : Pty) (bytes : List Byte) : List Byte :=
  if p.stopped then [] else bytes.take (ptyRing - p.toMaster.count)

theorem kept_eq_self_iff {p : Pty} (h : p.toMaster.Fits ptyRing) (bytes : List Byte) :
    p.kept bytes = bytes ↔ Session.Takes p bytes := by
  have hCount := h.count
  unfold Pty.kept Session.Takes
  cases p.stopped
  · rw [if_neg Bool.false_ne_true, take_eq_self_iff, ← length_eq_zero_iff]
    simp only [true_and]
    omega
  · simp [eq_comm]

theorem kept_eq_nil_iff {p : Pty} (h : p.toMaster.Fits ptyRing) (bytes : List Byte) :
    p.kept bytes = [] ↔ bytes = [] ∨ p.stopped ∨ p.toMaster.count = ptyRing := by
  have hCount := h.count
  unfold Pty.kept
  cases p.stopped
  · rw [if_neg Bool.false_ne_true, take_eq_nil_iff]
    simp only [Bool.false_eq_true, false_or]
    rw [or_comm, show ptyRing - p.toMaster.count = 0 ↔ p.toMaster.count = ptyRing by omega]
  · simp

namespace Session

variable {s : Session} {p : Pty} {op : PtyOp}

structure Kept (s : Session) : Prop where
  fits : s.pty.toMaster.Fits ptyRing
  exact : s.Exact

theorem fits_out (h : p.toMaster.Fits ptyRing) (bytes : List Byte) :
    (p.out bytes).toMaster.Fits ptyRing ∧
      (p.out bytes).toMaster.contents ptyRing = p.toMaster.contents ptyRing ++ p.kept bytes := by
  unfold Pty.out Pty.kept
  split
  · exact ⟨h, (append_nil _).symm⟩
  · exact fits_put h bytes

/-- Output leaves a session exact when what is kept of it is what it should have sent. -/
theorem exact_out_iff (h : Kept s) (hRing : p.toMaster = s.pty.toMaster) (bytes image : List Byte) :
    Exact ⟨p.out bytes, s.sent ++ image, s.got⟩ ↔ p.kept bytes = image := by
  have hOut := (fits_out (p := p) (hRing ▸ h.fits) bytes).2
  have hExact := h.exact
  unfold Exact at hExact ⊢
  rw [hOut, hRing, ← append_assoc, hExact, append_cancel_left_eq]

theorem Kept.fits_exec (h : Kept s) (op : PtyOp) : (s.exec op).pty.toMaster.Fits ptyRing := by
  cases op with
  | slaveWrite buf =>
    simp only [exec, Pty.ptySlaveWrite]
    split
    · exact h.fits
    split
    · exact h.fits
    · exact (fits_out h.fits _).1
  | masterRead len =>
    simp only [exec, Pty.ptyMasterRead]
    split
    · exact h.fits
    · exact (h.fits.popN (Nat.min_le_right _ _)).1
  | type c => exact (fits_out ((discipline_toMaster s.pty c).symm ▸ h.fits) _).1
  | tcxonc | tcsets => exact h.fits

theorem Kept.exact_exec_iff (h : Kept s) (op : PtyOp) : (s.exec op).Exact ↔ s.Careful op := by
  cases op with
  | slaveWrite buf =>
    simp only [exec, Careful, Pty.ptySlaveWrite]
    split
    · rename_i hClosed
      have hClosed : s.pty.masterOpen = false := by simpa using hClosed
      simpa [hClosed, Except.toOption] using h.exact
    rename_i hOpen
    split_ifs with hFull
    · simpa [Nat.not_lt.mpr hFull, Except.toOption] using h.exact
    · simp only [Except.toOption, Option.getD_some, take_length]
      rw [exact_out_iff h rfl, kept_eq_self_iff h.fits]
      simp [by simpa using hOpen, Nat.lt_of_not_le hFull]
  | masterRead len =>
    refine iff_of_true ?_ trivial
    simp only [exec, Pty.ptyMasterRead]
    split
    · simpa [Exact] using h.exact
    · obtain ⟨-, -, hAll⟩ := h.fits.popN (Nat.min_le_right
        (if s.pty.pktmode && decide (1 < len) then len - 2 else len) s.pty.toMaster.count)
      have hExact := h.exact
      unfold Exact at hExact ⊢
      rwa [append_assoc, ← hAll]
  | type c =>
    have hRing := discipline_toMaster s.pty c
    simp only [exec, Careful, Pty.ptyInput]
    generalize s.pty.discipline c = r at hRing ⊢
    have hFits : r.1.toMaster.Fits ptyRing := hRing.symm ▸ h.fits
    rw [exact_out_iff h hRing]
    rcases r with ⟨p, bytes | bytes⟩
    · exact kept_eq_self_iff hFits bytes
    · exact kept_eq_nil_iff hFits bytes
  | tcxonc | tcsets => exact iff_of_true h.exact trivial

/-- A pseudo-terminal that starts empty loses and adds no output in exactly the runs in which every
call is careful, and a write of the master counts the bytes that went through the line
discipline. -/
theorem exact_along_iff (p : Pty) (ops : List PtyOp) :
    (Along (fun s op => (s.exec op).Exact) exec (start p) ops ↔ Along Careful exec (start p) ops) ∧
      ∀ buf n p', p.ptyMasterWrite buf = (.ok n, p') → p' = (buf.take n).foldl Pty.ptyInput p := by
  constructor
  · refine along_iff (I := Kept) (fun s op h => h.exact_exec_iff op) (fun s op h hOp => ?_) ?_ ops
    · exact ⟨h.fits_exec op, (h.exact_exec_iff op).mpr hOp⟩
    · exact ⟨⟨Nat.succ_pos _, Nat.zero_le _, Nat.succ_pos _, rfl⟩, rfl⟩
  · intro buf n p' h
    unfold Pty.ptyMasterWrite at h
    split at h
    · cases h
    · cases h
      rw [take_length]

instance (s : Session) : Decidable s.Exact := inferInstanceAs (Decidable (_ = _))

def held : Pty :=
  ⟨{}, 0, [], ⟨fun _ => 0, 0, 0, 0⟩, ⟨fun _ => 0, 0, 0, 0⟩, [], false, true, false, true, true⟩

/-- A byte written while the output is stopped is counted and never read. -/
theorem lost_while_stopped : (held.ptySlaveWrite [0x61]).1 = .ok 1 ∧
    ¬((start held).exec (.slaveWrite [0x61])).Exact := by
  decide

end Session

end Gnos.Tty
