import CpuScheduler.Lib.MsgQueue
import CpuScheduler.Mmu.Basic

/-!
# The round robin scheduler

`rr_scheduler/rr_scheduler.c` and `rr_scheduler/rr_scheduler_functions.c`, together
with the child processes of `process/RR_process.c` that the scheduler drives through
a semaphore, a shared cell and signals. The state is the scheduler's global
variables, the kernel objects it shares with the others, and its children.

One turn of the main loop is cut at the points where somebody else can come in
between (`CpuScheduler.Pc`); what happens between two cuts is one function of the
state and of the clock readings it makes. A function that would not return yet – a
message that is not there, a child that has not exited, a clock that has not moved –
returns `CpuScheduler.Fault.blocked`.

A child is known by the pointer of its PCB, and its process id is that pointer plus
one: the program uses process ids as names only. Eight fields record the history and
are read by no function: which children a pending `SIGUSR1` came from, which
processes were received, from which messages, and which were finished, who executed
at which tick, and the calls of `check`, `checkBlockEnd` and `clear_recent`.
-/

namespace CpuScheduler

/-- What the scheduler and its children are started with: the arguments of the
scheduler, and the request files, by process id. -/
structure Params where
  quantum : ℤ
  k : ℤ
  requestFile : ℤ → List Request

/-- A child process. Its request array is kept from `req_index` on. -/
structure Child where
  id : ℤ
  remainingtime : ℤ
  runningTime : ℤ
  reqs : List Request
  stopped : Bool
  exited : Bool
deriving DecidableEq, Repr

/-- A line of `scheduler.log`; `ta` is the turnaround time of a finished process. -/
structure LogLine where
  time : ℤ
  id : ℤ
  lState : LogState
  arrival : ℤ
  runtime : ℤ
  remaining : ℤ
  waiting : ℤ
  ta : Option ℤ
deriving DecidableEq, Repr

/-- Where the main loop is: at its condition, in front of one of its calls, or out of
the loop. -/
inductive Pc
  | top | requests | blockEnd | finish | reap | gate | receive | algo | last | exited
deriving DecidableEq, Repr

/-- The state of the scheduler. -/
structure RRState extends Mem where
  readyQueue : List Ptr
  blockQueue : List Ptr
  requests : List Request
  quantumsPassed : ℤ
  processFinishedSignal : Bool
  nextPreemtionTime : ℤ
  contextSwitchUntil : ℤ
  lastPrint : ℤ
  checked : Bool
  lastReceivedSync : ℤ
  receivingProcesses : Bool
  perf : PerfVars
  schedulerLog : List LogLine
  /-- The local variables of `main` and of `receiveProcesses`. -/
  pc : Pc
  lastTick : ℤ
  now : ℤ
  receiveNow : ℤ
  /-- The kernel objects: the two message queues, the shared cell, the semaphore. -/
  msgq : List ProcessData
  reqMsgq : List Request
  shmRT : ℤ
  sem : ℕ
  child : Ptr → Option Child
  /-- The history. -/
  raisedBy : List Ptr
  received : List Ptr
  admitted : List ProcessData
  finished : List Ptr
  executed : List (Ptr × ℤ)
  /-- The requests that were passed to `check`, with their owners and the results. -/
  checks : List (Ptr × Request × Mem.CheckResult)
  /-- How often `checkBlockEnd` was called. -/
  scans : ℕ
  /-- The values of `quantums_passed` at the calls of `clear_recent`. -/
  clears : List ℤ

namespace RRState

/-- The state in front of the main loop. -/
def init : RRState where
  toMem := Mem.init
  readyQueue := []
  blockQueue := []
  requests := []
  quantumsPassed := 0
  processFinishedSignal := false
  nextPreemtionTime := -1
  contextSwitchUntil := -1
  lastPrint := -1
  checked := false
  lastReceivedSync := -1
  receivingProcesses := true
  perf := initializePerf
  schedulerLog := []
  pc := .top
  lastTick := -1
  now := 0
  receiveNow := 0
  msgq := []
  reqMsgq := []
  shmRT := 0
  sem := 0
  child := fun _ => none
  raisedBy := []
  received := []
  admitted := []
  finished := []
  executed := []
  checks := []
  scans := 0
  clears := []

/-! ### Small operations -/

/-- Run a memory operation. -/
def onMem (s : RRState) (x : Except Fault Mem) : Except Fault RRState := do
  let m ← x
  .ok { s with toMem := m }

/-- Write through a PCB pointer. -/
def update (s : RRState) (p : Ptr) (g : PCB → PCB) : Except Fault RRState :=
  s.onMem (s.setPcb p g)

/-- `SIGSTOP` or `SIGCONT` to the child of a process. -/
def signal (s : RRState) (p : Ptr) (stopped : Bool) : RRState :=
  { s with
    child := Function.update s.child p ((s.child p).map fun c => { c with stopped := stopped }) }

/-- The line `log_data` writes. -/
def lineOf (x : PCB) (time : ℤ) : LogLine where
  time := if x.lState = .finish ∧ x.finishTime ≠ -1 then x.finishTime else time
  id := x.id
  lState := x.lState
  arrival := x.arrival
  runtime := x.runtime
  remaining := x.remainingTime
  waiting := x.waitingTime
  ta := if x.lState = .finish then some (x.finishTime - x.arrival) else none

/-- `log_data`. -/
def logData (s : RRState) (time : ℤ) (p : Ptr) : Except Fault RRState := do
  let x ← s.pcb p
  .ok { s with schedulerLog := s.schedulerLog ++ [lineOf x time] }

/-! ### Requests -/

/-- The branch of `checkReqs` for a fault of the running process: it is stopped and
queued as blocked. -/
def blockCurrent (clk : Clk) (s : RRState) (p : Ptr) : Except Fault RRState := do
  let s ← s.update p fun x => { x with lState := .stop, remainingTime := s.shmRT }
  let s ← s.logData (clk .reqLog) p
  let s ← s.update p fun x => { x with lastStopped := clk .reqStopped, state := .B }
  .ok { s with
    quantumsPassed := s.quantumsPassed + 1, blockQueue := Queue.enqueue s.blockQueue p }

/-- The other branch: the process is taken out of the ready queue. -/
def blockReady (s : RRState) (owner : Ptr) : Except Fault (Option (Ptr × RRState)) := do
  let x ← s.pcb owner
  let r ← Queue.dequeueById s.idOf x.id s.readyQueue
  match r with
  | none => .ok none
  | some (p, rest) => do
    let s ← { s with readyQueue := rest }.update p fun x => { x with state := .B }
    .ok (some (p, { s with blockQueue := Queue.enqueue s.blockQueue p }))

/-- After the fault of the running process, nothing is running. -/
def switchFrom (clk : Clk) (s : RRState) (p : Ptr) : Except Fault RRState := do
  let x ← s.pcb p
  let s := if x.pid > 0 then
      { s.signal p true with contextSwitchUntil := clk .reqSwitch + 1 } else s
  .ok { s with
    contextSwitchUntil := clk .reqSwitchAgain + 1, currProcess := none, nextPreemtionTime := -1 }

/-- The end of `checkReqs`: load the page, and switch if the process was running. -/
def resolveMiss (clk : Clk) (s : RRState) (p : Ptr) (page : ℤ) (req : Request) :
    Except Fault RRState := do
  let x ← s.pcb p
  let s ← s.onMem (s.faultHandler clk x.id page .demand req.address req.operation)
  if s.currProcess = some p then s.switchFrom clk p else .ok s

/-- What `checkReqs` does about a page that is not resident. -/
def handleMiss (clk : Clk) (s : RRState) (owner : Ptr) (page : ℤ) (req : Request) :
    Except Fault RRState := do
  if s.currProcess = some owner then do
    let s ← s.blockCurrent clk owner
    s.resolveMiss clk owner page req
  else do
    match ← s.blockReady owner with
    | none => .ok s
    | some (p, s) => s.resolveMiss clk p page req

/-- The request at the front of the queue, once its owner is known. -/
def serveRequest (clk : Clk) (s : RRState) (req : Request) (owner : Ptr) :
    Except Fault RRState := do
  let page := (parseHexaAddress req.address).page
  let (result, m) ← s.check owner page req.operation
  let s := { s with toMem := m, checks := s.checks ++ [(owner, req, result)] }
  if req.tick ≤ clk .reqDue then do
    let (currReq, rest) ← Queue.dequeue s.requests
    let s := { s with requests := rest }
    match result with
    | .hit => .ok s
    | .invalid => .ok s
    | .miss => s.handleMiss clk owner page currReq
  else .ok s

/-- `checkReqs`. -/
def checkReqs (clk : Clk) (s : RRState) : Except Fault RRState :=
  if Queue.isEmpty s.requests then .ok s
  else do
    let pendingReq ← Queue.peek s.requests
    let requestOwner ← s.getProcess pendingReq.mtype
    match requestOwner with
    | none => .ok s
    | some owner => s.serveRequest clk pendingReq owner

/-- The message `handleRequests` takes from the queue, stamped with the tick. -/
def fetchRequest (clk : Clk) (s : RRState) (id : ℤ) : RRState :=
  match MsgQueue.rcv Request.mtype id s.reqMsgq with
  | none => s
  | some (req, rest) =>
    { s with
      reqMsgq := rest
      requests := Queue.enqueue s.requests { req with tick := clk .reqTick } }

/-- `handleRequests`. -/
def handleRequests (clk : Clk) (s : RRState) : Except Fault RRState :=
  match s.currProcess with
  | none => .ok s
  | some p => do
    let x ← s.pcb p
    (s.fetchRequest clk x.id).checkReqs clk

/-! ### Unblocking -/

/-- The page of a process that is unblocked is released, if it was recorded. -/
def releasePending (clk : Clk) (s : RRState) (k : ℕ) (p : Ptr) : Except Fault RRState := do
  let x ← s.pcb p
  if x.pendingPage ≠ -1 ∧ x.pendingFrame ≠ -1 then do
    let s ← s.onMem ((s.logLine (.loaded (clk (.blockEndLog k)) (x.base + x.pendingPage) x.id
      x.pendingFrame)).freeReserved x.pendingFrame)
    s.update p fun x => { x with pendingPage := -1, pendingFrame := -1 }
  else .ok s

/-- The body of `checkBlockEnd` for a process whose time has come. -/
def unblock (clk : Clk) (s : RRState) (k : ℕ) (id : ℤ) : Except Fault RRState := do
  let r ← Queue.dequeueById s.idOf id s.blockQueue
  match r with
  | none => .ok s
  | some (p, rest) => do
    let s ← { s with blockQueue := rest }.releasePending clk k p
    let s ← s.update p fun x => { x with state := .W }
    .ok { s with readyQueue := Queue.enqueue s.readyQueue p }

/-- One node of the block queue. -/
def blockEndNode (clk : Clk) (s : RRState) (k : ℕ) (p : Ptr) : Except Fault RRState := do
  let x ← s.pcb p
  if x.unblockAt ≤ clk (.blockEnd k) then s.unblock clk k x.id else .ok s

/-- The walk over the nodes. The successor of a node is read before the node is taken
out, so the walk goes over the nodes that were there at its start. -/
def blockEndFrom (clk : Clk) : ℕ → List Ptr → RRState → Except Fault RRState
  | _, [], s => .ok s
  | k, p :: l, s => do
    let s ← s.blockEndNode clk k p
    blockEndFrom clk (k + 1) l s

/-- `checkBlockEnd`. -/
def checkBlockEnd (clk : Clk) (s : RRState) : Except Fault RRState :=
  blockEndFrom clk 0 s.blockQueue { s with scans := s.scans + 1 }

/-! ### Finishing -/

/-- The performance figures after a process has finished. -/
def perfOf (perf : PerfVars) (x : PCB) (finish : ℤ) : PerfVars :=
  let wta : ℚ := ((finish - x.arrival : ℤ) : ℚ) / (x.runtime : ℚ)
  let n := perf.numProcs + 1
  let delta := wta - perf.welfordMeanWTA
  let mean := perf.welfordMeanWTA + delta / n
  { avgWTA := perf.avgWTA + wta
    avgWaiting := perf.avgWaiting + x.waitingTime
    m2WTA := perf.m2WTA + delta * (wta - mean)
    welfordMeanWTA := mean
    totalRuntime := perf.totalRuntime + x.runtime
    firstArrival := perf.firstArrival
    finishTime := finish
    numProcs := n }

/-- The test of `handleFinishedProcesses`; its branch goes on in `reap`. -/
def handleFinishedProcesses (s : RRState) : RRState :=
  if s.currProcess.isSome ∧ s.processFinishedSignal then
    { s with processFinishedSignal := false, raisedBy := [], pc := .reap }
  else { s with pc := .gate }

/-- `waitpid` on the child of a process: it returns once the child has exited, or at
once if there is no such child. -/
def waitpid (s : RRState) (p : Ptr) : Except Fault Unit :=
  match s.child p with
  | none => .ok ()
  | some c => if c.exited then .ok () else .error .blocked

/-- The branch of `handleFinishedProcesses`, from `waitpid` on. -/
def reap (clk : Clk) (s : RRState) : Except Fault RRState :=
  match s.currProcess with
  | none => .error .nullDeref
  | some p => do
    s.waitpid p
    let finish := clk .finish
    let s ← s.update p fun x =>
      { x with finishTime := finish, state := .F, lState := .finish, remainingTime := s.shmRT }
    let s := { s with
      contextSwitchUntil := finish + 1, quantumsPassed := s.quantumsPassed + 1 }
    let s ← s.logData finish p
    let x ← s.pcb p
    let m ← s.release p
    .ok { s with
      toMem := m
      perf := perfOf s.perf x finish
      child := Function.update s.child p none
      nextPreemtionTime := -1
      finished := s.finished ++ [p]
      pc := .gate }

/-! ### Receiving -/

/-- The first received process gives the first arrival. -/
def firstArrivalOf (perf : PerfVars) (d : ProcessData) : PerfVars :=
  if perf.firstArrival = -1 then { perf with firstArrival := d.arrival } else perf

/-- `receiveProcesses` on a process message. -/
def receiveProcess (s : RRState) (d : ProcessData) : RRState :=
  { s with
    heap := Function.update s.heap s.brk (some (createPCB d))
    brk := s.brk + 1
    perf := firstArrivalOf s.perf d
    readyQueue := Queue.enqueue s.readyQueue s.brk
    currentPCBs := Queue.enqueue s.currentPCBs s.brk
    received := s.received ++ [s.brk]
    admitted := s.admitted ++ [d] }

/-- One turn of the loop of `receiveProcesses`. -/
def receiveProcesses (s : RRState) : Except Fault RRState :=
  match MsgQueue.rcv ProcessData.mtype (-5) s.msgq with
  | none => .error .blocked
  | some (msg, rest) =>
    let s := { s with msgq := rest }
    if msg.mtype = 1 then .ok (s.receiveProcess msg)
    else if msg.mtype = 2 then
      if msg.arrival ≥ s.receiveNow then
        .ok { s with lastReceivedSync := msg.arrival, pc := .algo }
      else .ok s
    else if msg.mtype = 5 then .ok { s with receivingProcesses := false, pc := .algo }
    else .ok s

/-! ### Dispatching -/

/-- The first half of `runProcess` for a process that was never started. -/
def startProcess (P : Params) (clk : Clk) (s : RRState) (p : Ptr) : Except Fault RRState := do
  let s ← s.onMem (s.initializePCB clk p)
  let s ← s.update p fun x => { x with lState := .start }
  let s ← s.logData (clk .startLog) p
  let x ← s.pcb p
  let s := { s with child := Function.update s.child p (some
    { id := x.id, remainingtime := x.remainingTime, runningTime := 0,
      reqs := P.requestFile x.id, stopped := false, exited := false }) }
  s.update p fun x => { x with pid := (p : ℤ) + 1 }

/-- The other half: a process that has run before. -/
def resumeProcess (clk : Clk) (s : RRState) (p : Ptr) : Except Fault RRState := do
  let s ← s.update p fun x =>
    { x with
      waitingTime := if x.lastStopped ≥ 0 then x.waitingTime + (clk .resume - x.lastStopped)
        else x.waitingTime
      lState := .resume }
  let s ← s.logData (clk .resumeLog) p
  .ok (s.signal p false)

/-- The test on `pid`. -/
def startOrResume (P : Params) (clk : Clk) (s : RRState) (p : Ptr) : Except Fault RRState := do
  let x ← s.pcb p
  if x.pid = -1 then s.startProcess P clk p else s.resumeProcess clk p

/-- `runProcess`. -/
def runProcess (P : Params) (clk : Clk) (s : RRState) (p : Ptr) : Except Fault RRState := do
  let x ← s.pcb p
  let s ← { s with shmRT := x.remainingTime }.update p fun x =>
    if x.startTime = -1 then
      { x with startTime := clk .start, waitingTime := clk .start - x.arrival }
    else x
  let s ← s.startOrResume P clk p
  s.update p fun x => { x with state := .R }

/-- Dispatch the front of the ready queue. -/
def dispatch (P : Params) (clk : Clk) (s : RRState) : Except Fault RRState := do
  let (p, rest) ← Queue.dequeue s.readyQueue
  { s with readyQueue := rest, currProcess := some p }.runProcess P clk p

/-- The scan of the block queue in the middle of a preemption. -/
def checkOnce (clk : Clk) (s : RRState) : Except Fault RRState :=
  if s.checked then .ok s
  else do
    let s ← s.checkBlockEnd clk
    .ok { s with checked := true }

/-- `wait_N_secs(1, 1)`. -/
def waitNSecs (clk : Clk) : Except Fault Unit :=
  if clk .waitStart + 1 ≤ clk .waitEnd then .ok () else .error .blocked

/-- The running process goes back to the ready queue. -/
def stopCurrent (clk : Clk) (s : RRState) (p : Ptr) : Except Fault RRState := do
  let s ← s.update p fun x => { x with lState := .stop, remainingTime := s.shmRT }
  let s ← (s.signal p true).logData (clk .stopLog) p
  let s ← s.update p fun x =>
    { x with lastStopped := clk .stopped, remainingTime := s.shmRT, state := .W }
  .ok { s with
    quantumsPassed := s.quantumsPassed + 1
    readyQueue := Queue.enqueue s.readyQueue p
    contextSwitchUntil := clk .switchUntil + 1 }

/-- The preemption of `RR_algo`. -/
def preempt (P : Params) (clk : Clk) (s : RRState) (p : Ptr) : Except Fault RRState := do
  let s ← s.stopCurrent clk p
  let s ← s.checkOnce clk
  waitNSecs clk
  { s with nextPreemtionTime := clk .nextPreemption + P.quantum }.dispatch P clk

/-- Whether a quantum that expires may be extended: nobody else is ready, or the first
in the ready queue has arrived just now. -/
def mayExtend (clk : Clk) (s : RRState) : Except Fault Bool :=
  if Queue.isEmpty s.readyQueue then .ok true
  else do
    let front ← Queue.peek s.readyQueue
    let x ← s.pcb front
    .ok (x.arrival = clk .frontArrival)

/-- `RR_algo`. -/
def rrAlgo (P : Params) (clk : Clk) (s : RRState) : Except Fault RRState :=
  match s.currProcess with
  | some p => do
    let extend ← s.mayExtend clk
    if extend ∧ clk .extendDue ≥ s.nextPreemtionTime then
      .ok { s with
        nextPreemtionTime := clk .extendNext + P.quantum
        quantumsPassed := s.quantumsPassed + 1 }
    else if clk .preemptDue ≥ s.nextPreemtionTime then s.preempt P clk p
    else .ok s
  | none =>
    if Queue.isEmpty s.readyQueue then .ok s
    else do
      let s ← s.dispatch P clk
      .ok { s with nextPreemtionTime := clk .nextPreemption + P.quantum }

/-- `RR_algo` is not called at tick 0. -/
def algoFrom (P : Params) (clk : Clk) (s : RRState) : Except Fault RRState :=
  if s.now > 0 then s.rrAlgo P clk else .ok s

/-- The `R` bits are cleared every `k` quanta. -/
def clearIfDue (P : Params) (s : RRState) : Except Fault RRState :=
  if P.k > 0 ∧ s.quantumsPassed > 0 ∧ s.quantumsPassed % P.k = 0 ∧
      s.quantumsPassed > s.lastPrint then do
    let s ← s.onMem s.clearRecent
    .ok { s with lastPrint := s.quantumsPassed, clears := s.clears ++ [s.quantumsPassed] }
  else .ok s

/-- The permit of one tick for the running process. -/
def permit (s : RRState) : RRState :=
  if s.currProcess.isSome ∧ s.now ≥ s.contextSwitchUntil then { s with sem := 1 } else s

/-! ### The main loop -/

/-- The loop condition, and the wait for the next tick. -/
def top (clk : Clk) (s : RRState) : RRState :=
  if !Queue.isEmpty s.readyQueue || !Queue.isEmpty s.blockQueue || s.receivingProcesses ||
      s.currProcess.isSome then
    if clk .now = s.lastTick then s
    else { s with now := clk .now, lastTick := clk .now, pc := .requests }
  else { s with pc := .exited }

/-- The first scan of the block queue. -/
def firstScan (clk : Clk) (s : RRState) : Except Fault RRState :=
  let s := { s with checked := false }
  if s.nextPreemtionTime ≠ s.now ∨ s.currProcess = none then s.checkOnce clk else .ok s

/-- The test of `context_switch_until`, and whether to receive. -/
def gate (clk : Clk) (s : RRState) : RRState :=
  if s.contextSwitchUntil = -1 ∨ s.now ≥ s.contextSwitchUntil then
    let s := { s with contextSwitchUntil := -1 }
    if s.receivingProcesses ∧ s.now > s.lastReceivedSync then
      { s with receiveNow := clk .receive, pc := .receive }
    else { s with pc := .algo }
  else { s with pc := .last }

/-- The rest of the guarded block. -/
def algo (P : Params) (clk : Clk) (s : RRState) : Except Fault RRState := do
  let s ← s.algoFrom P clk
  let s ← s.clearIfDue P
  .ok s.permit

/-- The last scan of the block queue. -/
def lastScan (clk : Clk) (s : RRState) : Except Fault RRState :=
  if !s.checked ∧ clk .loopEnd = s.now then s.checkBlockEnd clk else .ok s

/-- Move to the next cut. -/
def goto (pc : Pc) (x : Except Fault RRState) : Except Fault RRState := do
  let s ← x
  .ok { s with pc := pc }

/-- What the scheduler does from one cut to the next. -/
def phase (P : Params) (clk : Clk) (s : RRState) : Except Fault RRState :=
  match s.pc with
  | .top => .ok (s.top clk)
  | .requests => goto .blockEnd (s.handleRequests clk)
  | .blockEnd => goto .finish (s.firstScan clk)
  | .finish => .ok s.handleFinishedProcesses
  | .reap => s.reap clk
  | .gate => .ok (s.gate clk)
  | .receive => s.receiveProcesses
  | .algo => goto .last (s.algo P clk)
  | .last => goto .top (s.lastScan clk)
  | .exited => .error .blocked

/-! ### Children -/

/-- A child that is done signals its parent and exits. -/
def childExit (s : RRState) (p : Ptr) (c : Child) : RRState :=
  { s with
    child := Function.update s.child p (some { c with exited := true })
    processFinishedSignal := true
    raisedBy := s.raisedBy ++ [p] }

/-- The message of a child at this tick, if its next request is for it. A message type
below 1 is refused by the queue. -/
def requestOf (c : Child) : List Request × List Request :=
  match c.reqs with
  | [] => ([], [])
  | r :: rest =>
    if c.runningTime = r.tick then (if c.id ≥ 1 then [{ r with mtype := c.id }] else [], rest)
    else ([], r :: rest)

/-- A child that has been given a permit executes for one tick. -/
def childTick (s : RRState) (p : Ptr) (c : Child) : RRState :=
  let c' := { c with
    reqs := (requestOf c).2, remainingtime := c.remainingtime - 1,
    runningTime := c.runningTime + 1 }
  { s with
    sem := s.sem - 1
    reqMsgq := s.reqMsgq ++ (requestOf c).1
    shmRT := c'.remainingtime
    child := Function.update s.child p (some c')
    executed := s.executed ++ [(p, s.lastTick)] }

/-- The next move of the child of a process, if it can make one. -/
def childStep (s : RRState) (p : Ptr) : Option RRState :=
  match s.child p with
  | none => none
  | some c =>
    if c.stopped ∨ c.exited then none
    else if c.remainingtime ≤ 0 then some (s.childExit p c)
    else if s.sem = 0 then none
    else some (s.childTick p c)

end RRState

end CpuScheduler
