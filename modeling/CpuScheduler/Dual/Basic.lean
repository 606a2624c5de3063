import CpuScheduler.RR.Basic

/-!
# The scheduler with two CPUs

`scheduler/scheduler.c` with its third algorithm, `sub-sched/sub_scheduler.c` and
`process/process.c`. The main scheduler routes the processes to two sub-schedulers,
through one message queue for each; a third one leads back. All three read and write a
table of the loads, and a semaphore, the threshold gate, keeps the sub-schedulers from
going on to a tick that has not been routed yet. When the loads differ too much, the main
scheduler has the busier sub-scheduler give back its last process, by a signal, sends the
process to the other one, and has both stall for three ticks, by another signal.

Each party is cut at the points where somebody else can come in between
(`CpuScheduler.Dual.MainPc`, `CpuScheduler.Dual.SubPc`), and a cut carries the local
variables that are alive there. What happens between two cuts is a function of the state,
in which the clock is read once at most. A signal handler runs as a whole, at any cut of
its process.

The process id of a child is 1: a sub-scheduler has one child at a time, and uses its id as
a name only. Left out are what the branches of the other two algorithms use, and `N_time`,
which nothing reads. The fields at the end of a record are the history, which no
function reads.
-/

namespace CpuScheduler

namespace Dual

open Fallible

/-- The two CPUs. -/
inductive Cpu
  | one | two
deriving DecidableEq, Repr

/-- The other one. -/
def Cpu.other : Cpu → Cpu
  | .one => .two
  | .two => .one

@[simp] theorem Cpu.other_other (c : Cpu) : c.other.other = c := by cases c <;> rfl

theorem Cpu.other_ne (c : Cpu) : c.other ≠ c := by cases c <;> exact nofun

instance decidableForallCpu (p : Cpu → Prop) [∀ c, Decidable (p c)] : Decidable (∀ c, p c) :=
  decidable_of_iff (p .one ∧ p .two)
    ⟨fun h c => match c with | .one => h.1 | .two => h.2, fun h => ⟨h .one, h .two⟩⟩

theorem Cpu.eq_or (c d : Cpu) : d = c ∨ d = c.other := by
  cases c <;> cases d <;> first | exact Or.inl rfl | exact Or.inr rfl

/-- The command line of the main scheduler. -/
structure Params where
  N : ℤ
  M : ℤ

/-- What `load_shm` holds for a CPU. -/
structure Slot where
  count : ℤ
  totalRT : ℤ
deriving DecidableEq, Repr

/-- `load_shm`. -/
abbrev Load := Cpu → Slot

/-- The child of a sub-scheduler, a run of `process.c`. -/
structure Child where
  remainingtime : ℤ
  stopped : Bool
  exited : Bool
deriving DecidableEq, Repr

/-! ### The state of a sub-scheduler -/

/-- Where `update_load_shm` and `write_load_shm` return to: the loop, after a look at the
clock; the end of the loop; the end of `main`; `FCFS_algo`. -/
inductive After
  | spin | bottom | leave | run
deriving DecidableEq, Repr

/-- Where a sub-scheduler is. -/
inductive SubPc
  /-- In front of its loop, and at the condition of the loop. -/
  | start | cond
  /-- In one of the two loops that receive messages, in front of the gate (`false`) and
  behind it (`true`), and with a message for a new process. -/
  | drain (behind : Bool)
  | put (behind : Bool) (pd : ProcessData)
  | tick | finish | gate | resume | test
  /-- In `FCFS_algo`. -/
  | algo | dequeue | count
  | run | clear | permit
  /-- In `update_load_shm`: at its begin, with the number of the ready processes and the
  remaining time of the running one, and with the values to be written. -/
  | update (k : After)
  | total (k : After) (count running : ℤ)
  | write (k : After) (count totalRT : ℤ)
  | remaining
  /-- Out of the loop. -/
  | ack | closing | exited
deriving DecidableEq, Repr

/-- The state of a sub-scheduler. -/
structure Sub where
  readyQueue : List PCB
  currProcess : Option PCB
  receivingProcesses : Bool
  remainingProcesses : ℤ
  lastTick : ℤ
  now : ℤ
  currentTickTime : ℤ
  stalled : Bool
  stallEndTime : ℤ
  contextSwitchUntil : ℤ
  processFinished : Bool
  perf : PerfVars
  log : List LogLine
  pc : SubPc
  /-- The kernel objects: its message queue, the shared cell and the semaphore of its child,
  the child, and the signals that are pending. -/
  msgq : List ProcessData
  shmRT : ℤ
  sem : ℕ
  child : Option Child
  sigurg : Bool
  sigusr2 : Bool
  /-- The history: the ids of the processes it has received, dispatched, given back and
  finished. -/
  arrived : List ℤ
  dispatched : List ℤ
  stolen : List ℤ
  finished : List ℤ

/-- In front of the loop. -/
def Sub.init : Sub where
  readyQueue := []
  currProcess := none
  receivingProcesses := true
  remainingProcesses := 0
  lastTick := -1
  now := 0
  currentTickTime := 0
  stalled := false
  stallEndTime := -1
  contextSwitchUntil := -1
  processFinished := false
  perf := initializePerf
  log := []
  pc := .start
  msgq := []
  shmRT := 0
  sem := 0
  child := none
  sigurg := false
  sigusr2 := false
  arrived := []
  dispatched := []
  stolen := []
  finished := []

/-- `total_remaining_time`. -/
def totalRemainingTime (q : List PCB) : ℤ := (q.map PCB.remainingTime).sum

/-- `pcb_to_processData`. The memory fields are not set. -/
def pcbToProcessData (x : PCB) (mtype : ℤ) : ProcessData where
  mtype := mtype
  id := x.id
  arrival := x.arrival
  runtime := x.runtime
  priority := x.priority
  base := 0
  limit := 0

/-- A message of which only the type is set. -/
def bareMsg (mtype : ℤ) : ProcessData where
  mtype := mtype
  id := 0
  arrival := 0
  runtime := 0
  priority := 0
  base := 0
  limit := 0

/-! ### The steps of a sub-scheduler on its own state -/

namespace Sub

/-- A new process. -/
def receive (s : Sub) (pd : ProcessData) : Sub :=
  { s with
    readyQueue := Queue.enqueue s.readyQueue (createPCB pd)
    arrived := s.arrived ++ [pd.id] }

/-- The first process received in `main` or in `stall_sig` gives the first arrival. -/
def noteArrival (s : Sub) (pd : ProcessData) : Sub :=
  { s with perf := RRState.firstArrivalOf s.perf pd }

/-- The loop of a signal handler that receives all messages, up to a message of type 5. -/
def drainAll (f : Sub → ProcessData → Sub) : List ProcessData → Sub → Sub
  | [], s => { s with msgq := [] }
  | pd :: q, s =>
    if pd.mtype = 5 then { s with receivingProcesses := false, msgq := q }
    else drainAll f q (if pd.mtype = 1 then f s pd else s)

/-- `SIGSTOP` or `SIGCONT` to the child. -/
def signal (s : Sub) (stopped : Bool) : Sub :=
  { s with child := s.child.map fun c => { c with stopped := stopped } }

/-- The reply of `steal_handler`, and its effect on the ready queue. -/
def stealRear (s : Sub) (clk : ℤ) : Sub × ProcessData :=
  match Queue.dequeueRear s.readyQueue with
  | some (p, rest) =>
    ({ s with
      readyQueue := rest
      log := s.log ++ [RRState.lineOf { p with lState := .stolen } clk]
      stolen := s.stolen ++ [p.id] }, pcbToProcessData p 11)
  | none => (s, bareMsg 12)

/-- `steal_handler`. -/
def stealHandler (s : Sub) (clk : ℤ) : Sub × ProcessData :=
  ({ drainAll receive s.msgq s with sigurg := false } : Sub).stealRear clk

/-- The first part of `stall_sig`: the running process is stopped. -/
def stallCurrent (s : Sub) (clk : ℤ) : Sub :=
  match s.currProcess with
  | none => s
  | some x =>
    if !s.stalled ∧ x.pid ≠ -1 then
      let y := { x with
        lastStopped := clk, state := .W, remainingTime := s.shmRT, lState := .stop }
      { s.signal true with currProcess := some y, log := s.log ++ [RRState.lineOf y clk] }
    else s

/-- `stall_sig`. -/
def stallSig (s : Sub) (clk : ℤ) : Sub :=
  let s := { s.stallCurrent clk with stalled := true, sigusr2 := false }
  { drainAll (fun s pd => (s.noteArrival pd).receive pd) s.msgq s with stallEndTime := clk + 3 }

/-- `waitpid` on the child. -/
def waitpid (s : Sub) : Except Fault Unit :=
  match s.child with
  | none => .ok ()
  | some c => if c.exited then .ok () else .error .blocked

/-- `finishLogic`. -/
def finishLogic (s : Sub) (clk : ℤ) : Except Fault Sub :=
  match s.currProcess with
  | none => .error .nullDeref
  | some x => do
    s.waitpid
    let y := { x with
      finishTime := s.currentTickTime, remainingTime := 0, state := .F, lState := .finish }
    .ok { s with
      currProcess := none
      contextSwitchUntil := s.currentTickTime + 1
      log := s.log ++ [RRState.lineOf y clk]
      perf := RRState.perfOf s.perf y s.currentTickTime
      processFinished := false
      child := none
      finished := s.finished ++ [x.id] }

/-- The end of a stall. -/
def endStall (s : Sub) (clk : ℤ) : Sub :=
  if s.stalled ∧ s.now ≥ s.stallEndTime then
    let s := { s with stalled := false }
    match s.currProcess with
    | none => s
    | some x =>
      if x.pid ≠ -1 then
        let y := { x with
          waitingTime := if x.lastStopped ≥ 0 then
            x.waitingTime + (s.currentTickTime - x.lastStopped) else x.waitingTime
          lState := .resume }
        { s.signal false with
          currProcess := some { y with state := .R }, log := s.log ++ [RRState.lineOf y clk] }
      else s
  else s

/-- The condition under which the next process is dispatched. -/
def mayDispatch (s : Sub) : Bool :=
  s.currProcess.isNone ∧ !Queue.isEmpty s.readyQueue ∧ !s.stalled ∧
    (s.contextSwitchUntil = -1 ∨ s.now ≥ s.contextSwitchUntil) ∧ s.now > 0

/-- `dequeue` in `FCFS_algo`. -/
def dispatch (s : Sub) : Except Fault Sub := do
  let (p, rest) ← Queue.dequeue s.readyQueue
  .ok { s with
    currProcess := some p, readyQueue := rest, dispatched := s.dispatched ++ [p.id] }

/-- `runProcess`. -/
def runProcess (s : Sub) (clk : ℤ) : Except Fault Sub :=
  match s.currProcess with
  | none => .error .nullDeref
  | some x =>
    let y := if x.startTime = -1 then
        { x with startTime := s.currentTickTime, waitingTime := s.currentTickTime - x.arrival }
      else x
    let s := { s with shmRT := x.remainingTime }
    if y.pid = -1 then
      let y := { y with lState := .start }
      .ok { s with
        log := s.log ++ [RRState.lineOf y clk]
        child := some { remainingtime := y.remainingTime, stopped := false, exited := false }
        currProcess := some { y with pid := 1, state := .R } }
    else
      let y := { y with lState := .resume }
      .ok { s.signal false with
        log := s.log ++ [RRState.lineOf y clk], currProcess := some { y with state := .R } }

/-- `get_running_remaining_time`, at least 0. -/
def runningRemainingTime (s : Sub) : ℤ :=
  if s.currProcess.isSome then max s.shmRT 0 else 0

/-- The permit of one tick for the running process. -/
def permit (s : Sub) : Sub :=
  if s.currProcess.isSome ∧ !s.stalled then { s with sem := 1 } else s

/-- The condition of the loop. -/
def goesOn (s : Sub) : Bool :=
  !Queue.isEmpty s.readyQueue || s.receivingProcesses || s.currProcess.isSome ||
    s.remainingProcesses ≠ 0

/-- Behind one of the loops that receive messages. -/
def behindDrain : Bool → SubPc
  | false => .tick
  | true => .resume

/-- One turn of the loop that receives messages. -/
def drain (s : Sub) (behind : Bool) : Sub :=
  match MsgQueue.rcv ProcessData.mtype 0 s.msgq with
  | none => { s with pc := behindDrain behind }
  | some (pd, rest) =>
    let s := { s with msgq := rest }
    if pd.mtype = 5 then { s with receivingProcesses := false, pc := behindDrain behind }
    else if pd.mtype = 1 then { s with pc := .put behind pd }
    else s

/-- Where `update_load_shm` and `write_load_shm` return to. -/
def behindWrite : After → SubPc
  | .spin => .cond
  | .bottom => .remaining
  | .leave => .ack
  | .run => .run

/-- The next move of the child, if it can make one. -/
def childStep (s : Sub) : Option Sub :=
  match s.child with
  | none => none
  | some c =>
    if c.stopped ∨ c.exited then none
    else if c.remainingtime ≤ 0 then
      some { s with child := some { c with exited := true }, processFinished := true }
    else if s.sem = 0 then none
    else some { s with
      sem := s.sem - 1
      shmRT := c.remainingtime - 1
      child := some { c with remainingtime := c.remainingtime - 1 } }

end Sub

/-! ### The state of the main scheduler -/

/-- Where the main scheduler is. -/
inductive MainPc
  /-- At the condition of its loop, in front of the closing of the gate, in the loop that
  receives processes. -/
  | top | shut | receive
  /-- In `FCFS_algo`: in front of it; in its loop, and behind it, with the projected loads;
  at the test of the tick. -/
  | load
  | route (projected : Load)
  | publish (projected : Load)
  | check
  /-- In `check_threshold`: in front of it; with the busier CPU and the loads it has read;
  with the reply; with the runtime that has been moved. -/
  | threshold
  | steal (busier : Cpu) (read : Load)
  | await (busier : Cpu) (read : Load)
  | resend (busier : Cpu) (read : Load) (resp : ProcessData)
  | reflect (busier : Cpu) (read : Load) (moved : ℤ)
  | stall | waitStart
  | wait (curr : ℤ)
  /-- In front of the opening of the gate, and at the end of the loop. -/
  | opening | bottom | term (c : Cpu)
  /-- Out of the loop, and where a division by 0 has ended the program. -/
  | leave | done | crashed

/-- The state of the main scheduler. -/
structure Main where
  readyQueue : List PCB
  receivingProcesses : Bool
  lastTick : ℤ
  now : ℤ
  waitSub : ℤ
  termSentToSubs : Bool
  subsTerminated : ℕ
  stalled : Bool
  perf : PerfVars
  pc : MainPc

/-- In front of the loop. -/
def Main.init : Main where
  readyQueue := []
  receivingProcesses := true
  lastTick := -1
  now := 0
  waitSub := 0
  termSentToSubs := false
  subsTerminated := 0
  stalled := false
  perf := initializePerf
  pc := .top

namespace Main

/-- The condition of the loop. -/
def goesOn (m : Main) : Bool :=
  !Queue.isEmpty m.readyQueue || m.receivingProcesses || m.waitSub ≠ 0 || m.subsTerminated < 2

/-- Behind the loop that receives processes: `FCFS_algo` is not called at tick 0. -/
def behindReceive (now : ℤ) : MainPc := if now > 0 then .load else .bottom

/-- The CPU with fewer ready processes. -/
def routeTo (projected : Load) : Cpu :=
  if (projected .one).count ≤ (projected .two).count then .one else .two

/-- The projected loads after a process has been routed. -/
def project (projected : Load) (c : Cpu) (runtime : ℤ) : Load :=
  Function.update projected c
    { count := (projected c).count + 1, totalRT := (projected c).totalRT + runtime }

/-- The difference of the loads, and the busier CPU. -/
def diff (l : Load) : ℤ := |(l .one).totalRT - (l .two).totalRT|

def busier (l : Load) : Cpu := if (l .one).totalRT > (l .two).totalRT then .one else .two

/-- The loads that were read, after a process has been moved. -/
def reflect (l : Load) (b : Cpu) (moved : ℤ) : Load := fun c =>
  if c = b then
    { count := if (l c).count > 0 then (l c).count - 1 else (l c).count
      totalRT := if (l c).totalRT - moved < 0 then 0 else (l c).totalRT - moved }
  else { count := (l c).count + 1, totalRT := (l c).totalRT + moved }

end Main

end Dual

end CpuScheduler
