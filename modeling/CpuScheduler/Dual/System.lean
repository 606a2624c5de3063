import CpuScheduler.Dual.Basic
import CpuScheduler.RR.System

/-!
# The two sub-schedulers, the main scheduler and the clock

A state of the whole program, and what each party does next. The clock goes on by one
whenever it likes, a signal handler runs whenever its signal is pending, and nothing is
assumed about the speed of anybody, nor about the order in which the parties move.

The main scheduler is fed by the process generator of the round robin scheduler
(`CpuScheduler.Generator`), which is the same program.
-/

namespace CpuScheduler

namespace Dual

open Fallible

/-- A state of the program. `routed` is the history: the ids of the processes that
`FCFS_algo` has sent to a CPU. -/
structure World where
  main : Main
  sub : Cpu → Sub
  load : Load
  /-- `threshold_sem`. -/
  gate : ℕ
  /-- From the generator to the main scheduler, and from the sub-schedulers to it. -/
  msgq : List ProcessData
  resp : List ProcessData
  clock : ℤ
  gen : Generator
  routed : List ℤ

namespace World

variable {P : Params} {w w' : World}

/-- A move of a sub-scheduler in its own state. -/
def setSub (w : World) (c : Cpu) (s : Sub) : World := { w with sub := Function.update w.sub c s }

/-- `send_process_msg`. -/
def sendProcessMsg (w : World) (c : Cpu) (pd : ProcessData) (mtype : ℤ) : World :=
  w.setSub c { w.sub c with msgq := (w.sub c).msgq ++ [{ pd with mtype := mtype }] }

/-- The main scheduler goes on to a cut. -/
def goto (w : World) (pc : MainPc) : World := { w with main := { w.main with pc := pc } }

/-! ### The main scheduler -/

/-- The condition of the loop, the termination messages, and the wait for the next tick. -/
def top (w : World) : World :=
  if w.main.goesOn then
    let acks := w.resp.filter fun pd => pd.mtype = 6
    let w := { w with
      main := { w.main with subsTerminated := w.main.subsTerminated + acks.length }
      resp := w.resp.filter fun pd => pd.mtype ≠ 6 }
    if w.clock = w.main.lastTick then w
    else { w with main := { w.main with lastTick := w.clock, now := w.clock, pc := .shut } }
  else w.goto .leave

/-- One turn of the loop that receives processes. -/
def receive (w : World) : Except Fault World :=
  match MsgQueue.rcv ProcessData.mtype (-5) w.msgq with
  | none => .error .blocked
  | some (msg, rest) =>
    let w := { w with msgq := rest }
    let behind := Main.behindReceive w.main.now
    if msg.mtype = 1 then
      .ok { w with main := { w.main with
        readyQueue := Queue.enqueue w.main.readyQueue (createPCB msg)
        perf := RRState.firstArrivalOf w.main.perf msg } }
    else if msg.mtype = 2 then
      if msg.arrival ≥ w.main.now then .ok (w.goto behind) else .ok w
    else if msg.mtype = 5 then
      .ok { w with main := { w.main with receivingProcesses := false, pc := behind } }
    else .ok w

/-- One turn of the loop of `FCFS_algo`. -/
def route (w : World) (projected : Load) : World :=
  match w.main.readyQueue with
  | [] => w.goto (.publish projected)
  | x :: rest =>
    let c := Main.routeTo projected
    let w := w.sendProcessMsg c (pcbToProcessData x 11) 1
    { w with
      main := { w.main with
        readyQueue := rest, pc := .route (Main.project projected c x.runtime) }
      routed := w.routed ++ [x.id] }

/-- The test of the tick in `FCFS_algo`. -/
def check (P : Params) (w : World) : World :=
  if P.N = 0 then w.goto .crashed
  else if w.clock % P.N = 0 ∨ w.main.stalled then w.goto .threshold else w.goto .opening

/-- The decision of `check_threshold`. -/
def threshold (P : Params) (w : World) : World :=
  if Main.diff w.load > P.M then
    { w with main := { w.main with stalled := true, pc := .steal (Main.busier w.load) w.load } }
  else { w with main := { w.main with stalled := false, pc := .opening } }

/-- The reply to the command. -/
def await (w : World) (b : Cpu) (read : Load) : Except Fault World :=
  match MsgQueue.rcv ProcessData.mtype 0 w.resp with
  | none => .error .blocked
  | some (resp, rest) =>
    let w := { w with resp := rest }
    if resp.mtype = 12 then .ok (w.goto .opening) else .ok (w.goto (.resend b read resp))

/-- The end of the loop. -/
def bottom (w : World) : World :=
  let w := { w with main := { w.main with
    waitSub := (w.load .one).totalRT + (w.load .two).totalRT } }
  if !w.main.receivingProcesses ∧ !w.main.termSentToSubs then w.goto (.term .one)
  else w.goto .top

/-- **What the main scheduler does from one cut to the next.** -/
def mainNext (P : Params) (w : World) : Except Fault World :=
  match w.main.pc with
  | .top => .ok w.top
  | .shut => .ok ({ w with gate := 0 }.goto
      (if w.main.receivingProcesses then .receive else Main.behindReceive w.main.now))
  | .receive => w.receive
  | .load => .ok (w.goto (if Queue.isEmpty w.main.readyQueue then .check else .route w.load))
  | .route projected => .ok (w.route projected)
  | .publish projected => .ok ({ w with load := projected }.goto .check)
  | .check => .ok (w.check P)
  | .threshold => .ok (w.threshold P)
  | .steal b read => .ok ((w.setSub b { w.sub b with sigurg := true }).goto (.await b read))
  | .await b read => w.await b read
  | .resend b read resp =>
    .ok ((w.sendProcessMsg b.other resp 1).goto (.reflect b read resp.runtime))
  | .reflect b read moved => .ok ({ w with load := Main.reflect read b moved }.goto .stall)
  | .stall => .ok ({ w with sub := fun c => { w.sub c with sigusr2 := true } }.goto .waitStart)
  | .waitStart => .ok (w.goto (.wait (w.clock + 3)))
  | .wait curr => if curr > w.clock then .error .blocked else .ok (w.goto .opening)
  | .opening => .ok ({ w with gate := 2 }.goto .bottom)
  | .bottom => .ok w.bottom
  | .term .one => .ok ((w.sendProcessMsg .one (bareMsg 5) 5).goto (.term .two))
  | .term .two =>
    let w := w.sendProcessMsg .two (bareMsg 5) 5
    .ok { w with main := { w.main with termSentToSubs := true, pc := .top } }
  | .leave => .ok ({ w with gate := 2 }.goto .done)
  | .done => .error .blocked
  | .crashed => .error .blocked

/-! ### The sub-schedulers -/

/-- The semaphore of the gate. There is no gate at tick 0. -/
def passGate (w : World) (c : Cpu) : Except Fault World :=
  let s := w.sub c
  let t := { s with lastTick := s.now, pc := .drain true }
  if s.now > 0 then
    if w.gate = 0 then .error .blocked else .ok { w.setSub c t with gate := w.gate - 1 }
  else .ok (w.setSub c t)

/-- **What a sub-scheduler does from one cut to the next.** -/
def subNext (w : World) (c : Cpu) : Except Fault World :=
  let s := w.sub c
  match s.pc with
  | .start => .ok (w.setSub c { s with
      remainingProcesses := (w.load c.other).totalRT, pc := .cond })
  | .cond => .ok (w.setSub c { s with pc := if s.goesOn then .drain false else .update .leave })
  | .drain behind => .ok (w.setSub c (s.drain behind))
  | .put behind pd =>
    .ok (w.setSub c { (s.noteArrival pd).receive pd with pc := .drain behind })
  | .tick => .ok (w.setSub c { s with
      now := w.clock, currentTickTime := w.clock
      pc := if w.clock = s.lastTick then .update .spin else .finish })
  | .finish => do
    let s ← if s.processFinished then s.finishLogic w.clock else .ok s
    .ok (w.setSub c { s with pc := .gate })
  | .gate => w.passGate c
  | .resume => .ok (w.setSub c { s.endStall w.clock with pc := .test })
  | .test => .ok (w.setSub c { s with pc := if s.mayDispatch then .algo else .permit })
  | .algo => .ok (w.setSub c { s with
      pc := if s.currProcess = none ∧ !Queue.isEmpty s.readyQueue then .dequeue else .clear })
  | .dequeue => do
    let s ← s.dispatch
    .ok (w.setSub c { s with pc := .count })
  | .count => .ok (w.setSub c { s with
      pc := .total .run s.readyQueue.length (s.currProcess.elim 0 PCB.remainingTime) })
  | .update k => .ok (w.setSub c { s with
      pc := .total k s.readyQueue.length s.runningRemainingTime })
  | .total k count running => .ok (w.setSub c { s with
      pc := .write k count (totalRemainingTime s.readyQueue + running) })
  | .write k count totalRT => .ok { w.setSub c { s with pc := Sub.behindWrite k } with
      load := Function.update w.load c { count := count, totalRT := totalRT } }
  | .run => do
    let s ← s.runProcess w.clock
    .ok (w.setSub c { s with pc := .clear })
  | .clear => .ok (w.setSub c { s with contextSwitchUntil := -1, pc := .permit })
  | .permit => .ok (w.setSub c { s.permit with pc := .update .bottom })
  | .remaining => .ok (w.setSub c { s with
      remainingProcesses := (w.load c.other).totalRT, pc := .cond })
  | .ack => .ok { w.setSub c { s with pc := .closing } with resp := w.resp ++ [bareMsg 6] }
  | .closing => .ok (w.setSub c { s with pc := .exited })
  | .exited => .error .blocked

/-- The handler of the command to give a process back. -/
def steal (w : World) (c : Cpu) : World :=
  let r := (w.sub c).stealHandler w.clock
  { w.setSub c r.1 with resp := w.resp ++ [r.2] }

/-! ### The system -/

/-- The state at the start: nothing has been sent, and the clock shows 0. -/
def start (l : List ProcessData) : World where
  main := Main.init
  sub := fun _ => Sub.init
  load := fun _ => { count := 0, totalRT := 0 }
  gate := 0
  msgq := []
  resp := []
  clock := 0
  gen := { queue := l, sent := [], lastTime := -1, current := none, done := false }
  routed := []

/-- Whose move it is. -/
inductive Event
  /-- The clock goes on. -/
  | tick
  | main
  | sub (c : Cpu)
  /-- `steal_handler` or `stall_sig` runs in a sub-scheduler. -/
  | steal (c : Cpu)
  | stall (c : Cpu)
  /-- The child of a sub-scheduler takes a permit, or exits. -/
  | child (c : Cpu)
  /-- The generator looks at the clock, and sends a process that is due, the message for the
  tick, or the last message. -/
  | observe | send | sync | last
deriving DecidableEq, Repr

/-- The generator puts a message into the queue of the main scheduler. -/
def post (w : World) (d : ProcessData) (g : Generator) : World :=
  { w with msgq := w.msgq ++ [d], gen := g }

/-- **The steps of the system**: the state after a move, if the party can make one. -/
def next (P : Params) (w : World) : Event → Option World
  | .tick => some { w with clock := w.clock + 1 }
  | .main => (w.mainNext P).toOption
  | .sub c => (w.subNext c).toOption
  | .steal c => if (w.sub c).sigurg ∧ (w.sub c).pc ≠ .exited then some (w.steal c) else none
  | .stall c =>
    if (w.sub c).sigusr2 ∧ (w.sub c).pc ≠ .exited then
      some (w.setSub c ((w.sub c).stallSig w.clock)) else none
  | .child c => (w.sub c).childStep.map (w.setSub c)
  | .observe =>
    if w.gen.queue ≠ [] ∧ w.gen.current = none then
      some { w with gen := { w.gen with
        current := if w.clock = w.gen.lastTime then none else some w.clock } }
    else none
  | .send =>
    match w.gen.current, w.gen.queue with
    | some t, d :: q =>
      if d.arrival ≤ t then
        some (w.post d { w.gen with queue := q, sent := w.gen.sent ++ [d] }) else none
    | _, _ => none
  | .sync =>
    match w.gen.current with
    | some t =>
      if ∀ d ∈ w.gen.queue.head?, t < d.arrival then
        some (w.post (CpuScheduler.World.syncMsg t)
          { w.gen with lastTime := t, current := none }) else none
    | none => none
  | .last =>
    if w.gen.queue = [] ∧ w.gen.current = none ∧ w.gen.done = false then
      some (w.post CpuScheduler.World.lastMsg { w.gen with done := true }) else none

/-- The runs on a workload. -/
def system (P : Params) : TransitionSystem World where
  init w := ∃ l, CpuScheduler.World.Workload l ∧ w = start l
  step w w' := ∃ e, next P w e = some w'

theorem next_step (w : World) (e : Event) (w' : World) (h : w.next P e = some w') :
    (system P).step w w' := ⟨e, h⟩

/-- The runs all of whose steps meet a condition. -/
def systemIf (P : Params) (C : World → Event → Prop) : TransitionSystem World where
  init := (system P).init
  step w w' := ∃ e, next P w e = some w' ∧ C w e

/-- They are runs. -/
theorem reachable_of_if {C : World → Event → Prop} (h : (systemIf P C).Reachable w) :
    (system P).Reachable w := by
  induction h with
  | init h => exact .init h
  | step _ hst ih =>
    obtain ⟨e, h, -⟩ := hst
    exact .step ih ⟨e, h⟩

end World

end Dual

end CpuScheduler
