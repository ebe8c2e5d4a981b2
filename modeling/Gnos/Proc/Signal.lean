import Gnos.Sched.Effects
import Gnos.Signal.Model

/-! Sending signals: `proc_signal` of `src/kernel/proc.c`. -/

namespace Gnos

namespace Signal

def nsig : ℕ := 64
def sigchld : ℕ := 17
def sigcont : ℕ := 18
def sigtstp : ℕ := 20
def sigttin : ℕ := 21
def sigttou : ℕ := 22

def sigIsStop (sig : ℕ) : Bool :=
  sig = sigstop || sig = sigtstp || sig = sigttin || sig = sigttou

/-- The signals that `SIGCONT` takes back. -/
def stopSignals : Word :=
  sigmask sigstop ||| sigmask sigtstp ||| sigmask sigttin ||| sigmask sigttou

end Signal

open Signal

namespace Proc

/-- A task with `sig` pending; a stop signal takes back `SIGCONT`. -/
def pend (sig : ℕ) (x : Proc) : Proc :=
  let pending := if sigIsStop sig then x.sigPending &&& ~~~ sigmask sigcont else x.sigPending
  { x with sigPending := pending ||| sigmask sig }

/-- A task that `SIGCONT` has reached. -/
def unstop (x : Proc) : Proc := { x with sigPending := x.sigPending &&& ~~~ stopSignals }

end Proc

namespace Kernel

/-- `proc_signal`; the result code, which tells whether there was such a task and signal, is left
out. -/
def procSignal (k : Kernel) (p sig : ℕ) : Kernel :=
  let x := k.procs p
  if sig = 0 ∨ nsig ≤ sig ∨ x.state = .unused ∨ x.state = .zombie then k
  else if sig = sigcont then
    let k := k.modify p .unstop
    if x.state = .stopped then
      -- a ptrace stop is not a job-control stop
      if x.traced && x.ptraceStopped then k
      else (k.modify p fun x => { x with reported := false }).enqueueFresh p
    else k
  else if x.sigIgnored &&& sigmask sig ≠ 0 then k
  else
    let k := k.modify p (.pend sig)
    if x.state = .blocked then k.schedWake p
    else if x.state = .stopped ∧ sig = sigkill then k.enqueueFresh p
    else k

end Kernel

end Gnos
