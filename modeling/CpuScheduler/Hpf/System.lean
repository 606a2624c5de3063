import CpuScheduler.Dual.Basic
import CpuScheduler.Hpf.Priority
import CpuScheduler.RR.System

/-!
# HPF

`scheduler/scheduler.c` with the type 2: one CPU, and a ready queue that is kept by
`enqueue_priority`. The state of the scheduler and its children, and what each party does
next. `HPF_algo` is cut where another party can come in between: between the reading of the
clock and the `SIGSTOP` to the running process, and in `wait_N_secs`.

The clock goes on by one whenever it likes, and nothing is assumed about the speed of
anybody. The process generator (`CpuScheduler.Generator`) is the one of the round robin
scheduler, and the children are runs of `process.c` (`CpuScheduler.Dual.Child`), as those of a
sub-scheduler are. Here several of them can be alive, so a child is known by its pid, the
number of the `fork` it came from.
-/

namespace CpuScheduler

namespace Hpf

open Fallible

/-- Where the scheduler is. -/
inductive Pc
  /-- At the condition of its loop, at the test of the signal, in `waitpid`, at the test of
  `context_switch_until`, in the loop that receives processes. -/
  | top | finish | reap | gate | receive
  /-- In `HPF_algo`: in front of it, in front of the `SIGSTOP`, in `wait_N_secs`. -/
  | algo | stop | waitStart
  | wait (curr : ℤ)
  /-- Behind it, and out of the loop. -/
  | permit | exited
deriving DecidableEq, Repr

/-- The state of the scheduler. -/
structure State where
  readyQueue : List PCB
  currProcess : Option PCB
  receivingProcesses : Bool
  processFinishedSignal : Bool
  contextSwitchUntil : ℤ
  lastTick : ℤ
  now : ℤ
  perf : PerfVars
  log : List LogLine
  pc : Pc
  /-- The kernel objects: the message queue, the shared cell, the semaphore, the children by
  their pids, and the number of forks. -/
  msgq : List ProcessData
  shmRT : ℤ
  sem : ℕ
  child : ℤ → Option Dual.Child
  forks : ℤ
  /-- The history: the processes that were received, the PCBs that were let go of, and which
  child has executed at which tick. -/
  received : List ProcessData
  finished : List PCB
  executed : List (ℤ × ℤ)

/-- In front of the loop. -/
def State.init : State where
  readyQueue := []
  currProcess := none
  receivingProcesses := true
  processFinishedSignal := false
  contextSwitchUntil := -1
  lastTick := -1
  now := 0
  perf := initializePerf
  log := []
  pc := .top
  msgq := []
  shmRT := 0
  sem := 0
  child := fun _ => none
  forks := 0
  received := []
  finished := []
  executed := []

namespace State

/-! ### The scheduler -/

/-- The condition of the loop. -/
def goesOn (s : State) : Bool :=
  !Queue.isEmpty s.readyQueue || s.receivingProcesses || s.currProcess.isSome

/-- The begin of a turn, or another look at the clock. -/
def top (s : State) (clk : ℤ) : State :=
  if s.goesOn then
    if clk = s.lastTick then s else { s with lastTick := clk, now := clk, pc := .finish }
  else { s with pc := .exited }

/-- The test of the signal. -/
def testFinished (s : State) : State :=
  if s.currProcess.isSome ∧ s.processFinishedSignal then
    { s with processFinishedSignal := false, pc := .reap }
  else { s with pc := .gate }

/-- `waitpid` on the child of a process. -/
def waitpid (s : State) (x : PCB) : Except Fault Unit :=
  match s.child x.pid with
  | none => .ok ()
  | some c => if c.exited then .ok () else .error .blocked

/-- A process that has finished is let go of. -/
def reap (s : State) (clk : ℤ) : Except Fault State :=
  match s.currProcess with
  | none => .error .nullDeref
  | some x => do
    s.waitpid x
    let y := { x with
      finishTime := clk, state := .F, remainingTime := s.shmRT, lState := .finish }
    .ok { s with
      currProcess := none
      contextSwitchUntil := clk + 1
      log := s.log ++ [RRState.lineOf y clk]
      perf := RRState.perfOf s.perf y clk
      child := Function.update s.child x.pid none
      finished := s.finished ++ [y]
      pc := .gate }

/-- Behind the loop that receives processes: `HPF_algo` is not called at tick 0. -/
def behindReceive (now : ℤ) : Pc := if now > 0 then .algo else .permit

/-- The test of `context_switch_until`. -/
def gate (s : State) : State :=
  if s.contextSwitchUntil = -1 ∨ s.now ≥ s.contextSwitchUntil then
    { s with
      contextSwitchUntil := -1
      pc := if s.receivingProcesses then .receive else behindReceive s.now }
  else { s with pc := .top }

/-- One turn of the loop that receives processes. -/
def receive (s : State) : Except Fault State :=
  match MsgQueue.rcv ProcessData.mtype (-5) s.msgq with
  | none => .error .blocked
  | some (msg, rest) =>
    let s := { s with msgq := rest }
    if msg.mtype = 1 then
      .ok { s with
        readyQueue := Queue.enqueuePriority s.readyQueue (createPCB msg)
        perf := RRState.firstArrivalOf s.perf msg
        received := s.received ++ [msg] }
    else if msg.mtype = 2 then
      if msg.arrival ≥ s.now then .ok { s with pc := behindReceive s.now } else .ok s
    else if msg.mtype = 5 then
      .ok { s with receivingProcesses := false, pc := behindReceive s.now }
    else .ok s

/-! ### `HPF_algo` -/

/-- `SIGSTOP` or `SIGCONT` to a child. -/
def signal (s : State) (pid : ℤ) (stopped : Bool) : State :=
  { s with
    child := Function.update s.child pid
      ((s.child pid).map fun c => { c with stopped := stopped }) }

/-- `runProcess`. -/
def runProcess (s : State) (x : PCB) (clk : ℤ) : State :=
  let s := { s with shmRT := x.remainingTime }
  let x := if x.startTime = -1 then
      { x with startTime := clk, waitingTime := clk - x.arrival }
    else x
  if x.pid = -1 then
    let y := { x with lState := .start }
    { s with
      log := s.log ++ [RRState.lineOf y clk]
      forks := s.forks + 1
      child := Function.update s.child (s.forks + 1)
        (some { remainingtime := y.remainingTime, stopped := false, exited := false })
      currProcess := some { y with pid := s.forks + 1, state := .R } }
  else
    let y := { x with
      waitingTime := if x.lastStopped ≥ 0 then x.waitingTime + (clk - x.lastStopped)
        else x.waitingTime
      lState := .resume }
    { s.signal y.pid false with
      log := s.log ++ [RRState.lineOf y clk], currProcess := some { y with state := .R } }

/-- `HPF_algo`, up to the `SIGSTOP`. -/
def algo (s : State) (clk : ℤ) : Except Fault State :=
  match s.currProcess with
  | some x =>
    if !Queue.isEmpty s.readyQueue then do
      let top ← Queue.peek s.readyQueue
      if top.priority < x.priority then
        .ok { s with currProcess := some { x with lastStopped := clk }, pc := .stop }
      else .ok { s with pc := .permit }
    else .ok { s with pc := .permit }
  | none =>
    if !Queue.isEmpty s.readyQueue then do
      let (x, rest) ← Queue.dequeue s.readyQueue
      .ok { ({ s with readyQueue := rest } : State).runProcess x clk with pc := .permit }
    else .ok { s with pc := .permit }

/-- From the `SIGSTOP` up to `wait_N_secs`. -/
def stopCurrent (s : State) (clk : ℤ) : Except Fault State :=
  match s.currProcess with
  | none => .error .nullDeref
  | some x =>
    let y := { x with remainingTime := s.shmRT, state := .W, lState := .stop }
    .ok { s.signal x.pid true with
      log := s.log ++ [RRState.lineOf y clk]
      readyQueue := Queue.enqueuePriority s.readyQueue y
      currProcess := none
      pc := .waitStart }

/-- The permit of one tick for the running process. -/
def givePermit (s : State) : State :=
  { s with sem := if s.currProcess.isSome then 1 else s.sem, pc := .top }

/-- **What the scheduler does from one cut to the next.** -/
def next (s : State) (clk : ℤ) : Except Fault State :=
  match s.pc with
  | .top => .ok (s.top clk)
  | .finish => .ok s.testFinished
  | .reap => s.reap clk
  | .gate => .ok s.gate
  | .receive => s.receive
  | .algo => s.algo clk
  | .stop => s.stopCurrent clk
  | .waitStart => .ok { s with pc := .wait (clk + 1) }
  | .wait curr => if curr > clk then .error .blocked else .ok { s with pc := .permit }
  | .permit => .ok s.givePermit
  | .exited => .error .blocked

/-! ### The children -/

/-- The next move of a child, if it can make one. -/
def childStep (s : State) (pid clk : ℤ) : Option State :=
  match s.child pid with
  | none => none
  | some c =>
    if c.stopped ∨ c.exited then none
    else if c.remainingtime ≤ 0 then
      some { s with
        child := Function.update s.child pid (some { c with exited := true })
        processFinishedSignal := true }
    else if s.sem = 0 then none
    else some { s with
      sem := s.sem - 1
      shmRT := c.remainingtime - 1
      child := Function.update s.child pid (some { c with remainingtime := c.remainingtime - 1 })
      executed := s.executed ++ [(pid, clk)] }

end State

/-! ### The system -/

/-- A state of the whole program. -/
structure World where
  sch : State
  clock : ℤ
  gen : Generator

namespace World

/-- At the start the clock shows `t`. -/
def start (l : List ProcessData) (t : ℤ) : World where
  sch := State.init
  clock := t
  gen := { queue := l, sent := [], lastTime := -1, current := none, done := false }

/-- Whose move it is. -/
inductive Event
  /-- The clock goes on. -/
  | tick
  | sched
  /-- A child takes a permit, or exits. -/
  | child (pid : ℤ)
  /-- The generator looks at the clock, and sends a process that is due, the message for the
  tick, or the last message. -/
  | observe | send | sync | last
deriving DecidableEq, Repr

/-- The generator puts a message into the queue of the scheduler. -/
def post (w : World) (d : ProcessData) (g : Generator) : World :=
  { w with sch := { w.sch with msgq := w.sch.msgq ++ [d] }, gen := g }

/-- **The steps of the system**: the state after a move, if the party can make one. -/
def next (w : World) : Event → Option World
  | .tick => some { w with clock := w.clock + 1 }
  | .sched => (w.sch.next w.clock).toOption.map fun s => { w with sch := s }
  | .child pid => (w.sch.childStep pid w.clock).map fun s => { w with sch := s }
  | .observe =>
    if w.gen.queue ≠ [] ∧ w.gen.current = none then
      some { w with gen := { w.gen with
        current := if w.clock = w.gen.lastTime then none else some w.clock } }
    else none
  | .send =>
    match w.gen.current, w.gen.queue with
    | some t, d :: q =>
      if d.arrival ≤ t then
        some (w.post d { w.gen with queue := q, sent := w.gen.sent ++ [d] }) else none
    | _, _ => none
  | .sync =>
    match w.gen.current with
    | some t =>
      if ∀ d ∈ w.gen.queue.head?, t < d.arrival then
        some (w.post (CpuScheduler.World.syncMsg t)
          { w.gen with lastTime := t, current := none }) else none
    | none => none
  | .last =>
    if w.gen.queue = [] ∧ w.gen.current = none ∧ w.gen.done = false then
      some (w.post CpuScheduler.World.lastMsg { w.gen with done := true }) else none

/-- The runs all of whose steps meet a condition. -/
def systemIf (C : World → Event → Prop) : TransitionSystem World where
  init w := ∃ l t, CpuScheduler.World.Workload l ∧ 0 ≤ t ∧ w = start l t
  step w w' := ∃ e, next w e = some w' ∧ C w e

/-- All runs. -/
def system : TransitionSystem World := systemIf fun _ _ => True

theorem next_step (w : World) (e : Event) (w' : World) (h : w.next e = some w') :
    system.step w w' := ⟨e, h, trivial⟩

theorem reachable_of_if {C : World → Event → Prop} {w : World}
    (h : (systemIf C).Reachable w) : system.Reachable w := by
  induction h with
  | init h => exact .init h
  | step _ hst ih =>
    obtain ⟨e, h, -⟩ := hst
    exact .step ih ⟨e, h, trivial⟩

end World

end Hpf

end CpuScheduler
