import CpuScheduler.Hpf.System

/-!
# What the scheduler can do under HPF

The functions of `CpuScheduler.Hpf.State.next` as one relation, with a case for each path
from a cut to the next (`CpuScheduler.Hpf.State.Moves`), and the same for the children
(`CpuScheduler.Hpf.State.Executes`) and for the whole program
(`CpuScheduler.Hpf.World.Steps`). The proofs about runs go through these cases and do not look
at the functions again.
-/

namespace CpuScheduler

namespace Hpf

open Fallible

variable {s s' : State} {clk pid : ℤ}

namespace State

/-- A process that is dispatched, as `runProcess` leaves it. -/
def dispatched (x : PCB) (clk pid : ℤ) : PCB :=
  let x := if x.startTime = -1 then
      { x with startTime := clk, waitingTime := clk - x.arrival }
    else x
  if x.pid = -1 then { x with lState := .start, pid := pid, state := .R }
  else { x with
    waitingTime := if x.lastStopped ≥ 0 then x.waitingTime + (clk - x.lastStopped)
      else x.waitingTime
    lState := .resume, state := .R }

/-- A process that is let go of. -/
def reaped (x : PCB) (clk rt : ℤ) : PCB :=
  { x with finishTime := clk, state := .F, remainingTime := rt, lState := .finish }

/-- A process that is stopped. -/
def stopped (x : PCB) (rt : ℤ) : PCB :=
  { x with remainingTime := rt, state := .W, lState := .stop }

/-- A child that is created, or goes on. -/
def childOf (x : PCB) : Option Dual.Child → Option Dual.Child :=
  if x.pid = -1 then
    fun _ => some { remainingtime := x.remainingTime, stopped := false, exited := false }
  else Option.map fun c => { c with stopped := false }

/-- **What the scheduler can do**, when the clock shows `clk`. -/
inductive Moves (clk : ℤ) (s : State) : State → Prop
  /-- The loop is left. -/
  | leave (hpc : s.pc = .top) (hgo : s.goesOn = false) : Moves clk s { s with pc := .exited }
  /-- The clock has not moved. -/
  | spin (hpc : s.pc = .top) (hgo : s.goesOn = true) (hold : clk = s.lastTick) : Moves clk s s
  /-- A turn begins. -/
  | begin (hpc : s.pc = .top) (hgo : s.goesOn = true) (hnew : clk ≠ s.lastTick) :
      Moves clk s { s with lastTick := clk, now := clk, pc := .finish }
  /-- The running process, if there is one, has not signalled. -/
  | running (hpc : s.pc = .finish)
      (hno : ¬(s.currProcess.isSome = true ∧ s.processFinishedSignal = true)) :
      Moves clk s { s with pc := .gate }
  | signalled {x : PCB} (hpc : s.pc = .finish) (hx : s.currProcess = some x)
      (hsig : s.processFinishedSignal = true) :
      Moves clk s { s with processFinishedSignal := false, pc := .reap }
  /-- The process is let go of, after its child. -/
  | reap {x : PCB} (hpc : s.pc = .reap) (hx : s.currProcess = some x)
      (hchild : ∀ c, s.child x.pid = some c → c.exited = true) (l : List LogLine) :
      Moves clk s { s with
        currProcess := none
        contextSwitchUntil := clk + 1
        log := l
        perf := RRState.perfOf s.perf (reaped x clk s.shmRT) clk
        child := Function.update s.child x.pid none
        finished := s.finished ++ [reaped x clk s.shmRT]
        pc := .gate }
  /-- The context switch goes on, or is over. -/
  | closed (hpc : s.pc = .gate) (hcsu : s.contextSwitchUntil ≠ -1)
      (hnow : s.now < s.contextSwitchUntil) : Moves clk s { s with pc := .top }
  | listen (hpc : s.pc = .gate) (hcsu : s.contextSwitchUntil ≤ max (-1) s.now)
      (hrec : s.receivingProcesses = true) :
      Moves clk s { s with contextSwitchUntil := -1, pc := .receive }
  | skip (hpc : s.pc = .gate) (hcsu : s.contextSwitchUntil ≤ max (-1) s.now)
      (hrec : s.receivingProcesses = false) :
      Moves clk s { s with contextSwitchUntil := -1, pc := behindReceive s.now }
  /-- A process is received. -/
  | arrive {msg : ProcessData} {rest : List ProcessData} (hpc : s.pc = .receive)
      (hrcv : MsgQueue.rcv ProcessData.mtype (-5) s.msgq = some (msg, rest)) (h1 : msg.mtype = 1) :
      Moves clk s { s with
        msgq := rest
        readyQueue := Queue.enqueuePriority s.readyQueue (createPCB msg)
        perf := RRState.firstArrivalOf s.perf msg
        received := s.received ++ [msg] }
  /-- The message for the tick or a later one, the last message, another message. -/
  | sync {msg : ProcessData} {rest : List ProcessData} (hpc : s.pc = .receive)
      (hrcv : MsgQueue.rcv ProcessData.mtype (-5) s.msgq = some (msg, rest)) (h2 : msg.mtype = 2)
      (hnew : msg.arrival ≥ s.now) :
      Moves clk s { s with msgq := rest, pc := behindReceive s.now }
  | last {msg : ProcessData} {rest : List ProcessData} (hpc : s.pc = .receive)
      (hrcv : MsgQueue.rcv ProcessData.mtype (-5) s.msgq = some (msg, rest)) (h5 : msg.mtype = 5) :
      Moves clk s { s with
        msgq := rest, receivingProcesses := false, pc := behindReceive s.now }
  | drop {msg : ProcessData} {rest : List ProcessData} (hpc : s.pc = .receive)
      (hrcv : MsgQueue.rcv ProcessData.mtype (-5) s.msgq = some (msg, rest)) (h1 : msg.mtype ≠ 1) :
      Moves clk s { s with msgq := rest }
  /-- `HPF_algo` finds nothing to do: nobody is ready, or nobody comes before the running
  process. -/
  | idle (hpc : s.pc = .algo) (hrun : ∀ x, s.currProcess = some x →
        ∀ y ∈ s.readyQueue.head?, x.priority ≤ y.priority)
      (hnone : s.currProcess = none → s.readyQueue = []) : Moves clk s { s with pc := .permit }
  /-- It preempts the running process. -/
  | preempt {x y : PCB} {q : List PCB} (hpc : s.pc = .algo) (hx : s.currProcess = some x)
      (hq : s.readyQueue = y :: q) (hlt : y.priority < x.priority) :
      Moves clk s { s with currProcess := some { x with lastStopped := clk }, pc := .stop }
  /-- It dispatches the first process. -/
  | dispatch {x : PCB} {q : List PCB} (hpc : s.pc = .algo) (hcurr : s.currProcess = none)
      (hq : s.readyQueue = x :: q) (l : List LogLine) :
      Moves clk s { s with
        readyQueue := q
        shmRT := x.remainingTime
        log := l
        forks := if x.pid = -1 then s.forks + 1 else s.forks
        child := Function.update s.child (dispatched x clk (s.forks + 1)).pid
          (childOf x (s.child x.pid))
        currProcess := some (dispatched x clk (s.forks + 1))
        pc := .permit }
  | stop {x : PCB} (hpc : s.pc = .stop) (hx : s.currProcess = some x) (l : List LogLine) :
      Moves clk s { s with
        child := Function.update s.child x.pid
          ((s.child x.pid).map fun c => { c with stopped := true })
        log := l
        readyQueue := Queue.enqueuePriority s.readyQueue (stopped x s.shmRT)
        currProcess := none
        pc := .waitStart }
  | waitStart (hpc : s.pc = .waitStart) : Moves clk s { s with pc := .wait (clk + 1) }
  | waited {c : ℤ} (hpc : s.pc = .wait c) (hc : c ≤ clk) : Moves clk s { s with pc := .permit }
  /-- The running process is given its permit. -/
  | permit (hpc : s.pc = .permit) : Moves clk s { s with
      sem := if s.currProcess.isSome then 1 else s.sem, pc := .top }

/-! ### `runProcess` -/

theorem dispatched_pid (x : PCB) (clk pid : ℤ) :
    (dispatched x clk pid).pid = if x.pid = -1 then pid else x.pid := by
  unfold dispatched
  by_cases hs : x.startTime = -1
  · by_cases hp : x.pid = -1
    · simp only [if_pos hs, if_pos hp]
    · simp only [if_pos hs, if_neg hp]
  · by_cases hp : x.pid = -1
    · simp only [if_neg hs, if_pos hp]
    · simp only [if_neg hs, if_neg hp]

theorem runProcess_eq (s : State) (x : PCB) (clk : ℤ) : ∃ l, s.runProcess x clk = { s with
    shmRT := x.remainingTime
    log := l
    forks := if x.pid = -1 then s.forks + 1 else s.forks
    child := Function.update s.child (dispatched x clk (s.forks + 1)).pid
      (childOf x (s.child x.pid))
    currProcess := some (dispatched x clk (s.forks + 1)) } := by
  rw [runProcess]
  by_cases hs : x.startTime = -1
  · by_cases hp : x.pid = -1
    · simp only [dispatched, childOf, if_pos hs, if_pos hp]
      exact ⟨_, rfl⟩
    · simp only [dispatched, childOf, if_pos hs, if_neg hp]
      exact ⟨_, rfl⟩
  · by_cases hp : x.pid = -1
    · simp only [dispatched, childOf, if_neg hs, if_pos hp]
      exact ⟨_, rfl⟩
    · simp only [dispatched, childOf, if_neg hs, if_neg hp]
      exact ⟨_, rfl⟩

/-! ### The moves -/

/-- **What the scheduler does is one of the moves.** -/
theorem next_moves (h : s.next clk = .ok s') : Moves clk s s' := by
  rw [next] at h
  split at h
  · next hpc =>
    obtain rfl := Except.ok.inj h
    rw [top]
    split_ifs with hgo hold
    · exact .spin hpc hgo hold
    · exact .begin hpc hgo hold
    · exact .leave hpc (by simpa using hgo)
  · next hpc =>
    obtain rfl := Except.ok.inj h
    rw [testFinished]
    split_ifs with hfin
    · obtain ⟨x, hx⟩ := Option.isSome_iff_exists.mp hfin.1
      exact .signalled hpc hx hfin.2
    · exact .running hpc hfin
  · next hpc =>
    rw [reap] at h
    split at h
    · exact nomatch h
    · next x hx =>
      obtain ⟨u, hw, h⟩ := bind_eq_ok.mp h
      obtain rfl := Except.ok.inj h
      refine .reap hpc hx (fun c hc => ?_) _
      simp only [waitpid, hc] at hw
      by_contra hne
      rw [if_neg hne] at hw
      exact nomatch hw
  · next hpc =>
    obtain rfl := Except.ok.inj h
    rw [gate]
    split_ifs with hopen hrec
    · exact .listen hpc (by omega) hrec
    · exact .skip hpc (by omega) (by simpa using hrec)
    · exact .closed hpc (by omega) (by omega)
  · next hpc =>
    rw [receive] at h
    split at h
    · exact nomatch h
    · next msg rest hrcv =>
      dsimp only at h
      split_ifs at h with h1 h2 hnew h5
      · exact Except.ok.inj h ▸ .arrive hpc hrcv h1
      · exact Except.ok.inj h ▸ .sync hpc hrcv h2 hnew
      · exact Except.ok.inj h ▸ .drop hpc hrcv h1
      · exact Except.ok.inj h ▸ .last hpc hrcv h5
      · exact Except.ok.inj h ▸ .drop hpc hrcv h1
  · next hpc =>
    rw [algo] at h
    split at h
    · next x hx =>
      cases hq : s.readyQueue with
      | nil =>
        have hempty : Queue.isEmpty s.readyQueue = true := by rw [hq]; rfl
        rw [hempty] at h
        refine Except.ok.inj h ▸ .idle hpc (fun _ _ y hy => ?_) fun _ => hq
        rw [hq] at hy
        exact nomatch hy
      | cons y q =>
        have hempty : Queue.isEmpty s.readyQueue = false := by rw [hq]; rfl
        have hpeek : Queue.peek s.readyQueue = .ok y := by rw [hq]; rfl
        simp only [hempty, Bool.not_false, if_true, hpeek, ok_bind] at h
        split_ifs at h with hlt
        · exact Except.ok.inj h ▸ .preempt hpc hx hq hlt
        · refine Except.ok.inj h ▸ .idle hpc (fun x' hx' y' hy' => ?_) fun hn => ?_
          · obtain rfl := Option.some.inj (hx.symm.trans hx')
            rw [hq] at hy'
            exact Option.some.inj hy' ▸ not_lt.mp hlt
          · rw [hx] at hn
            exact nomatch hn
    · next hx =>
      cases hq : s.readyQueue with
      | nil =>
        have hempty : Queue.isEmpty s.readyQueue = true := by rw [hq]; rfl
        rw [hempty] at h
        refine Except.ok.inj h ▸ .idle hpc (fun x hx' => ?_) fun _ => hq
        rw [hx] at hx'
        exact nomatch hx'
      | cons y q =>
        have hempty : Queue.isEmpty s.readyQueue = false := by rw [hq]; rfl
        have hdeq : Queue.dequeue s.readyQueue = .ok (y, q) := by rw [hq]; rfl
        simp only [hempty, Bool.not_false, if_true, hdeq, ok_bind] at h
        obtain rfl := Except.ok.inj h
        obtain ⟨l, hl⟩ := runProcess_eq { s with readyQueue := q } y clk
        rw [hl]
        exact .dispatch hpc hx hq l
  · next hpc =>
    rw [stopCurrent] at h
    split at h
    · exact nomatch h
    · next x hx =>
      obtain rfl := Except.ok.inj h
      exact .stop hpc hx _
  · next hpc => exact Except.ok.inj h ▸ .waitStart hpc
  · next c hpc =>
    split_ifs at h with hc
    exact Except.ok.inj h ▸ .waited hpc (not_lt.mp hc)
  · next hpc => exact Except.ok.inj h ▸ .permit hpc
  · exact nomatch h

/-- **Nothing is taken from an empty queue.** -/
theorem next_ne_underflow (s : State) (clk : ℤ) : s.next clk ≠ .error .underflow := by
  have hok : ∀ t : State, (.ok t : Except Fault State) ≠ .error .underflow :=
    fun t h => nomatch h
  rw [next]
  split
  · exact hok _
  · exact hok _
  · intro h
    rw [reap] at h
    split at h
    · exact nomatch h
    · next x _ =>
      rcases bind_eq_error.mp h with hw | ⟨u, -, h⟩
      · rw [waitpid] at hw
        split at hw
        · exact nomatch hw
        · split_ifs at hw
          exact nomatch hw
      · exact hok _ h
  · exact hok _
  · intro h
    rw [receive] at h
    split at h
    · exact nomatch h
    · dsimp only at h
      split_ifs at h
  · intro h
    rw [algo] at h
    cases hq : s.readyQueue with
    | nil =>
      have hempty : Queue.isEmpty s.readyQueue = true := by rw [hq]; rfl
      rw [hempty] at h
      split at h <;> exact hok _ h
    | cons y q =>
      have hempty : Queue.isEmpty s.readyQueue = false := by rw [hq]; rfl
      have hpeek : Queue.peek s.readyQueue = .ok y := by rw [hq]; rfl
      have hdeq : Queue.dequeue s.readyQueue = .ok (y, q) := by rw [hq]; rfl
      simp only [hempty, Bool.not_false, if_true, hpeek, hdeq, ok_bind] at h
      split at h
      · split_ifs at h
      · exact hok _ h
  · intro h
    rw [stopCurrent] at h
    split at h
    · exact nomatch h
    · exact hok _ h
  · exact hok _
  · split_ifs
    · exact fun h => nomatch h
    · exact hok _
  · exact hok _
  · exact fun h => nomatch h

/-- **What a child can do.** -/
inductive Executes (pid clk : ℤ) (s : State) : State → Prop
  /-- It exits, and signals its parent. -/
  | exit {c : Dual.Child} (hc : s.child pid = some c) (hgo : c.stopped = false)
      (hlive : c.exited = false) (hdone : c.remainingtime ≤ 0) : Executes pid clk s { s with
        child := Function.update s.child pid (some { c with exited := true })
        processFinishedSignal := true }
  /-- It takes a permit. -/
  | tick {c : Dual.Child} (hc : s.child pid = some c) (hgo : c.stopped = false)
      (hlive : c.exited = false) (hleft : 0 < c.remainingtime) (hsem : s.sem ≠ 0) :
      Executes pid clk s { s with
        sem := s.sem - 1
        shmRT := c.remainingtime - 1
        child := Function.update s.child pid (some { c with remainingtime := c.remainingtime - 1 })
        executed := s.executed ++ [(pid, clk)] }

theorem childStep_executes (h : s.childStep pid clk = some s') : Executes pid clk s s' := by
  rw [childStep] at h
  split at h
  · exact nomatch h
  · next c hc =>
    split_ifs at h with hgo hdone hsem
    · obtain rfl := Option.some.inj h
      exact .exit hc (by simpa using fun he => hgo (Or.inl he))
        (by simpa using fun he => hgo (Or.inr he)) hdone
    · obtain rfl := Option.some.inj h
      exact .tick hc (by simpa using fun he => hgo (Or.inl he))
        (by simpa using fun he => hgo (Or.inr he)) (not_le.mp hdone) hsem

end State

namespace World

variable {w w' : World} {e : Event}

/-- **The steps of the program.** -/
inductive Steps (w : World) : Event → World → Prop
  | tick : Steps w .tick { w with clock := w.clock + 1 }
  | sched {s : State} (h : State.Moves w.clock w.sch s) : Steps w .sched { w with sch := s }
  | child {pid : ℤ} {s : State} (h : State.Executes pid w.clock w.sch s) :
      Steps w (.child pid) { w with sch := s }
  | observe (hq : w.gen.queue ≠ []) (hcur : w.gen.current = none) :
      Steps w .observe { w with gen := { w.gen with
        current := if w.clock = w.gen.lastTime then none else some w.clock } }
  | send {t : ℤ} {d : ProcessData} {q : List ProcessData} (hcur : w.gen.current = some t)
      (hq : w.gen.queue = d :: q) (hdue : d.arrival ≤ t) :
      Steps w .send (w.post d { w.gen with queue := q, sent := w.gen.sent ++ [d] })
  | sync {t : ℤ} (hcur : w.gen.current = some t) (hq : ∀ d ∈ w.gen.queue.head?, t < d.arrival) :
      Steps w .sync (w.post (CpuScheduler.World.syncMsg t)
        { w.gen with lastTime := t, current := none })
  | last (hq : w.gen.queue = []) (hcur : w.gen.current = none) (hdone : w.gen.done = false) :
      Steps w .last (w.post CpuScheduler.World.lastMsg { w.gen with done := true })

theorem next_steps (h : w.next e = some w') : Steps w e w' := by
  cases e with
  | tick => exact Option.some.inj h ▸ .tick
  | sched =>
    obtain ⟨s, hs, rfl⟩ := Option.map_eq_some_iff.mp h
    exact .sched (State.next_moves (toOption_eq_some.mp hs))
  | child pid =>
    obtain ⟨s, hs, rfl⟩ := Option.map_eq_some_iff.mp h
    exact .child (State.childStep_executes hs)
  | observe =>
    simp only [next] at h
    by_cases hc : w.gen.queue ≠ [] ∧ w.gen.current = none
    · rw [if_pos hc] at h
      exact Option.some.inj h ▸ .observe hc.1 hc.2
    · rw [if_neg hc] at h
      exact nomatch h
  | send =>
    simp only [next] at h
    split at h
    · next t d q hcur hq =>
      split_ifs at h with hdue
      exact Option.some.inj h ▸ .send hcur hq hdue
    · exact nomatch h
  | sync =>
    simp only [next] at h
    split at h
    · next t hcur =>
      split_ifs at h with hq
      exact Option.some.inj h ▸ .sync hcur hq
    · exact nomatch h
  | last =>
    simp only [next] at h
    split_ifs at h with hc
    exact Option.some.inj h ▸ .last hc.1 hc.2.1 hc.2.2

end World

end Hpf

end CpuScheduler
