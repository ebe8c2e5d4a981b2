import Gnos.Proc.Model

/-! The scheduler of `src/kernel/proc.c` and the cpu controller of `src/kernel/cgroup/cgroup_cpu.c`.
Processor state, the big kernel lock and debug output are left out; what runs under the scheduler
lock is one step. -/

namespace Gnos.Kernel

open ProofKit

def nrRq : ℕ := 4
def virtUnit : Word := 1024
def maxCgs : ℕ := 512

def effWeight (p : Proc) : BitVec 32 :=
  if p.schedWeight < p.piBoost then p.piBoost else p.schedWeight

def virtDelta (used : Word) (w : BitVec 32) : Word :=
  let w := if w = 0 then 1 else w
  (used <<< 20) / w.setWidth 64

variable (k : Kernel) (p : ℕ)

def cpuMaskOf : BitVec 32 :=
  if k.cpuAllowed p = 0 then 0xF else k.cpuAllowed p

def lowestCpu (mask : BitVec 32) : ℕ := ((List.range nrRq).find? fun i => mask.getLsbD i).getD 0

def pickCpu : ℕ := lowestCpu (k.cpuMaskOf p)

/-- The queue that is charged for processor `cpu`: a number out of range means queue 0. -/
def clampCpu (cpu : ℤ) : ℕ := if 0 ≤ cpu ∧ cpu < nrRq then cpu.toNat else 0

def keyBefore (a b : ℕ) : Bool :=
  if (k.procs a).deadline ≠ (k.procs b).deadline then (k.procs a).deadline < (k.procs b).deadline
  else (k.procs a).pid < (k.procs b).pid

def tprioOf (a : ℕ) : ℕ := (k.procs a).tprio.toNat

def trInsert (q p : ℕ) : Kernel :=
  k.setRq q fun rq => { rq with root := rq.root.insert k.tprioOf k.keyBefore p }

def trDelete (q p : ℕ) : Kernel :=
  k.setRq q fun rq => { rq with root := rq.root.delete k.tprioOf k.keyBefore p }

/-- Moves `min_vtime` up to the virtual runtime of the leftmost task. -/
def bumpMin (q : ℕ) : Kernel :=
  match (k.rqs q).root.leftmost with
  | some lm =>
    if 0 < ((k.procs lm).vruntime - (k.rqs q).minVtime).toInt then
      k.setRq q fun rq => { rq with minVtime := (k.procs lm).vruntime }
    else k
  | none => k

/-- Where `rq_enqueue` puts a task on the virtual clock: its remembered lag, but not below the
floor. -/
def place (rq : Rq) (p : Proc) : Proc :=
  let vruntime := rq.vtime - p.vlag
  let p :=
    if (vruntime - rq.minVtime).toInt < 0 then
      { p with vruntime := rq.minVtime, vlag := rq.vtime - rq.minVtime }
    else { p with vruntime := vruntime }
  { p with deadline := p.vruntime + p.slice }

def rqEnqueue (q p : ℕ) : Kernel :=
  let k := k.modify p (place (k.rqs q))
  let k := k.trInsert q p
  let k := k.setRq q fun rq => { rq with count := rq.count + 1 }
  k.bumpMin q

def rqDequeue (q p : ℕ) : Kernel :=
  let k := k.trDelete q p
  let k := k.setRq q fun rq => { rq with count := rq.count - 1 }
  k.bumpMin q

structure Picked where
  elig : Option ℕ := none
  fb : Option ℕ := none
  fbVlag : ℤ := 0

def Picked.full (a : Picked) : Bool := a.elig.isSome && a.fb.isSome

/-- The lag of a task on a queue with virtual clock `vtime`. -/
def lagAt (vtime : Word) (p : ℕ) : ℤ := (vtime - (k.procs p).vruntime).toInt

/-- What `tr_pick` makes of one task. -/
def Picked.consider (vtime : Word) (a : Picked) (p : ℕ) : Picked :=
  let vlag := k.lagAt vtime p
  if vlag ≤ 0 then if a.elig.isNone then { a with elig := some p } else a
  else if a.fb.isNone || vlag < a.fbVlag then { a with fb := some p, fbVlag := vlag }
  else a

def trPick (k : Kernel) (vtime : Word) : Treap ℕ → Picked → Picked
  | .nil, a => a
  | .node l p r, a =>
    if a.full then a
    else
      let a := trPick k vtime l a
      if a.full then a else trPick k vtime r (a.consider k vtime p)

def rqPickBest (q : ℕ) : Option ℕ × Kernel :=
  let rq := k.rqs q
  let a := trPick k rq.vtime rq.root {}
  match a.elig.or a.fb with
  | none => (none, k)
  | some pick =>
    let k := k.modify pick fun p => { p with vlag := rq.vtime - p.vruntime }
    (some pick, k.rqDequeue q pick)

/-- The cgroups from `c` up to the root, slot 0. -/
def cgChainFrom (k : Kernel) : ℕ → ℕ → List ℕ
  | 0, _ => []
  | fuel + 1, c =>
    if c = 0 then [c]
    else
      match (k.cgs c).parent with
      | none => [c]
      | some c' => c :: cgChainFrom k fuel c'

/-- The cgroups that task `p` counts in. -/
def cgChain : List ℕ :=
  match (k.procs p).cg with
  | none => []
  | some c => cgChainFrom k maxCgs c

def cgChainThrottled : Bool := (k.cgChain p).any fun c => (k.cgs c).throttled

def cgAnchor : Option ℕ :=
  ((k.cgChain p).filter fun c => (k.cgs c).throttled).getLast?

variable (g : CpuCgroup)

def periodOver (now : Word) : Bool :=
  g.periodStart + g.periodTicks.setWidth 64 ≤ now

/-- One turn of the loop of `period_rollover`. -/
def nextPeriod : CpuCgroup :=
  let stop := g.periodStart + g.periodTicks.setWidth 64
  let g :=
    if g.throttled then
      { g with
        throttledTotal := g.throttledTotal +
          if g.throttleStart < stop then stop - g.throttleStart else 0
        throttled := false }
    else g
  { g with periodStart := stop, usedPeriod := 0 }

def rolloverLoop (now : Word) : ℕ → CpuCgroup → CpuCgroup
  | 0, g => g
  | fuel + 1, g => if periodOver g now then rolloverLoop now fuel (nextPeriod g) else g

/-- `period_rollover`.  A period is one tick or longer, so that the loop ends within `now` turns. -/
def periodRollover (now : Word) : CpuCgroup :=
  if g.quotaTicks = 0 ∨ g.periodTicks = 0 then g else rolloverLoop now (now.toNat + 1) g

def spend (now used : Word) : CpuCgroup :=
  let g := { g with usageTotal := g.usageTotal + used }
  if g.quotaTicks = 0 then g
  else
    let g := { g with usedPeriod := g.usedPeriod + used }
    if !g.throttled && g.quotaTicks < g.usedPeriod then
      { g with throttled := true, nrThrottled := g.nrThrottled + 1, throttleStart := now }
    else g

/-- What `cg_charge_runtime` does to one cgroup. -/
def chargeGroup (now used : Word) : CpuCgroup :=
  spend (if periodOver g now then periodRollover g now else g) now used

def chargeChain (used : Word) : List ℕ → Bool → Kernel → Bool × Kernel
  | [], throttled, k => (throttled, k)
  | c :: cs, throttled, k =>
    let k := k.setCg c fun g => chargeGroup g k.ticks used
    let hit := (k.cgs c).quotaTicks ≠ 0 && (k.cgs c).throttled
    chargeChain used cs (throttled || hit) k

def cgChargeRuntime (used : Word) : Bool × Kernel :=
  if used = 0 then (false, k) else chargeChain used (k.cgChain p) false k

def limit (quotaTicks : Word) (periodTicks : BitVec 32) (g : CpuCgroup) : CpuCgroup :=
  { g with
    periodTicks := periodTicks
    quotaTicks := if quotaTicks = 0 then 1 else quotaTicks }

def cgCpuSetMax (c : ℕ) (quotaTicks : Word) (periodTicks : BitVec 32) : Kernel :=
  k.setCg c fun g => periodRollover (limit quotaTicks periodTicks g) k.ticks

/-- Hangs task `p` at the head of the park list of `c`. -/
def parkLink (c p : ℕ) : Kernel :=
  (k.modify p (.setParkNext (k.cgs c).parkHead)).setCg c fun g =>
    { g with parkHead := (k.procs p).pid }

/-- The home queue that `enqueue_fresh` settles on. -/
def homeCpu : ℤ :=
  let x := k.procs p
  if x.rqCpu < 0 ∨ (nrRq : ℤ) ≤ x.rqCpu ∨ (k.cpuMaskOf p).getLsbD x.rqCpu.toNat = false then
    k.pickCpu p
  else x.rqCpu

/-- Gives a task its home queue and, the first time, its priority in the treap. -/
def settle : Kernel :=
  k.modify p fun x =>
    { x with
      rqCpu := k.homeCpu p
      tprio :=
        if x.tprio = 0 then (BitVec.ofInt 32 x.pid * 0x9E3779B9) ^^^ 0x85EBCA6B else x.tprio }

/-- `enqueue_fresh` past the throttling check. -/
def enqueueReady : Kernel :=
  let k := k.settle p
  let k := k.rqEnqueue (k.procs p).rqCpu.toNat p
  k.modify p (.setState .ready)

/-- `cg_park`.  Without a throttled cgroup on the chain it ends in `sched_enqueue`, whose own check
then fails for the same reason. -/
def cgPark : Kernel :=
  if (k.procs p).cg.isNone then k
  else
    let k := k.modify p fun x => (x.block .cgroup).setParkNext (-1)
    match k.cgAnchor p with
    | none => k.enqueueReady p
    | some anchor => k.parkLink anchor p

/-- `enqueue_fresh`, and `sched_enqueue`, which makes the same check once more. -/
def enqueueFresh : Kernel :=
  if k.cgChainThrottled p then k.cgPark p else k.enqueueReady p

def schedWake : Kernel :=
  if (k.procs p).state = .blocked then
    (k.modify p fun x => { x with waitReason := .none, wakeTick := 0 }).enqueueFresh p
  else k

def rqRemove : Kernel :=
  let x := k.procs p
  if x.state ≠ .ready ∨ x.rqCpu < 0 ∨ (nrRq : ℤ) ≤ x.rqCpu then k
  else
    let q := x.rqCpu.toNat
    let k := k.modify p fun x => { x with vlag := (k.rqs q).vtime - x.vruntime }
    let k := k.rqDequeue q p
    k.modify p fun x => { x with rqCpu := -1 }

/-- What `release_parked` does with one task of the list. -/
def releaseOne : Kernel :=
  if (k.procs p).state = .blocked ∧ (k.procs p).waitReason = .cgroup then
    let k := k.modify p (.setParkNext (-1))
    match k.cgAnchor p with
    | some anchor => k.parkLink anchor p
    | none => k.enqueueFresh p
  else k

/-- The loop of `release_parked` from the task with number `pid` on. -/
def releaseLoop : ℕ → ℤ → Kernel → Kernel
  | 0, _, k => k
  | fuel + 1, pid, k =>
    if pid = -1 then k
    else
      match k.procByPid pid with
      | none => k
      | some p => releaseLoop fuel (k.procs p).cgParkNext (k.releaseOne p)

/-- `release_parked`; a list with more entries than the table has slots does not end. -/
def releaseParked (c : ℕ) : Kernel :=
  releaseLoop (4 * maxProcs) (k.cgs c).parkHead (k.setCg c fun g => { g with parkHead := -1 })

/-- What `cg_tick_refresh` does for one cgroup. -/
def refreshGroup (c : ℕ) : Kernel :=
  let g := k.cgs c
  if g.live && g.quotaTicks ≠ 0 && g.throttled && periodOver g k.ticks then
    (k.setCg c fun g => periodRollover g k.ticks).releaseParked c
  else k

def cgTickRefresh : Kernel := (List.range maxCgs).foldl refreshGroup k

/-- The virtual time that the running task `p` used up to now, charged to it and to the clock of its
queue. -/
def account : Kernel :=
  let used := k.ticks - (k.procs p).lastRunTick
  let q := clampCpu (k.procs p).onCpu
  let k := k.setRq q fun rq => { rq with vtime := rq.vtime + used * virtUnit }
  k.modify p fun x =>
    let vruntime := x.vruntime + virtDelta used (effWeight x)
    { x with
      vruntime := vruntime
      vlag := (k.rqs q).vtime - vruntime
      lastRunTick := k.ticks }

/-- The ticks since `p` was charged last. -/
def unaccounted : Word := k.ticks - (k.procs p).lastRunTick

/-- A task as it leaves its processor: ready, with a new deadline if the old one has passed. -/
def readyAgain (x : Proc) : Proc :=
  { x with
    state := .ready
    deadline := if x.deadline ≤ x.vruntime then x.vruntime + x.slice else x.deadline }

def putRunning (used : Word) : Kernel :=
  let (throttled, k) := (k.modify p readyAgain).cgChargeRuntime p used
  if throttled || k.cgChainThrottled p then k.cgPark p
  else k.rqEnqueue (clampCpu (k.procs p).onCpu) p

/-- What `schedule_locked` does with the task that the processor had. -/
def putPrev : Kernel :=
  let used := k.unaccounted p
  let k := k.account p
  if (k.procs p).state = .running then k.putRunning p used else k

/-- The queue with the most tasks besides `mine`. -/
def busiest (mine : ℕ) : Option ℕ :=
  (List.range nrRq).foldl (fun best i =>
    if i = mine ∨ (k.rqs i).count = 0 then best
    else
      match best with
      | none => some i
      | some b => if (k.rqs b).count < (k.rqs i).count then some i else some b) none

/-- The next task for queue `mine`: its own best, or one taken from the busiest other queue. -/
def pickNext (mine : ℕ) : Option ℕ × Kernel :=
  match k.rqPickBest mine with
  | (some next, k) => (some next, k.modify next fun x => { x with rqCpu := mine })
  | (none, k) =>
    match k.busiest mine with
    | none => (none, k)
    | some q =>
      match k.rqPickBest q with
      | (none, k) => (none, k)
      | (some next, k) =>
        (some next, k.modify next fun x =>
          { x with vruntime := (k.rqs mine).vtime - x.vlag, rqCpu := mine })

variable (cpu : ℕ)

/-- A task as it starts on processor `cpu`. -/
def startOn (now : Word) (x : Proc) : Proc :=
  { x with deadline := x.vruntime + x.slice, lastRunTick := now, onCpu := cpu }

/-- Makes `next` the task of processor `cpu`. -/
def startNext (cpu next : ℕ) : Kernel :=
  (k.modify next (startOn cpu k.ticks)).setCurrent cpu (some next)

/-- The second half of `schedule_locked`: the processor, which had `prev`, takes the next task. -/
def switchFrom (prev : Option ℕ) : Kernel :=
  match k.pickNext (cpu % nrRq) with
  | (none, k) =>
    match prev with
    | none => k
    | some p => if (k.procs p).state = .running then k else k.setCurrent cpu none
  | (some next, k) =>
    let k := k.modify next (.setState .running)
    if prev = some next then k else k.startNext cpu next

/-- `schedule_locked` on processor `cpu`. -/
def schedule : Kernel :=
  match k.current cpu with
  | none => k.switchFrom cpu none
  | some p => (k.putPrev p).switchFrom cpu (some p)

/-- The best task of queue `q`, which goes back to its queue at once. -/
def repick (q : ℕ) : Option ℕ × Kernel :=
  match k.rqPickBest q with
  | (some p, k) => (some p, k.rqEnqueue q p)
  | (none, k) => (none, k)

def overdue (cur : ℕ) : Option ℕ → Bool
  | some p => (k.procs p).vlag.toInt ≤ 0 && (k.procs p).deadline < (k.procs cur).deadline
  | none => false

/-- `sched_tick` on processor `cpu`, `schedule` included. -/
def schedTick : Kernel :=
  match k.current cpu with
  | none => k
  | some cur =>
    let used := k.unaccounted cur
    let k := k.account cur
    let (throttled, k) := k.cgChargeRuntime cur used
    let (owed, k) := k.repick (clampCpu (k.procs cur).onCpu)
    let late := (k.procs cur).deadline ≤ (k.procs cur).vruntime
    if throttled || late || k.overdue cur owed then k.schedule cpu else k

/-- `sched_block`: the running task waits. -/
def schedBlock (why : WaitReason) : Kernel :=
  match k.current cpu with
  | none => k
  | some p => (k.modify p (.block why)).schedule cpu

/-- `sched_setaffinity` for task `p`, past its checks. -/
def schedSetaffinity (mask : BitVec 32) : Kernel :=
  let k := { k with cpuAllowed := Function.update k.cpuAllowed p (mask &&& 0xF) }
  k.modify p fun x => { x with rqCpu := k.pickCpu p }

end Gnos.Kernel
