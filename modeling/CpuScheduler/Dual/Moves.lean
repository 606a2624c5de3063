import CpuScheduler.Dual.System

/-!
# What each party can do

The functions of the main scheduler and of a sub-scheduler are gone through once, for
everything that is proved later: `CpuScheduler.Dual.World.Mains` and
`CpuScheduler.Dual.World.Subs` list their moves, with the conditions under which they are
made. The main scheduler reaches into a sub-scheduler only by its message queue and by
signals (`CpuScheduler.Dual.Sub.Reached`); a sub-scheduler reaches out by its slot of the
load table, by the gate and by the response queue.
-/

namespace CpuScheduler

namespace Dual

open Fallible

/-- A sub-scheduler after somebody else has moved: it may have messages and signals. -/
def Sub.Reached (s s' : Sub) : Prop :=
  ∃ q u v, s' = { s with msgq := q, sigurg := u, sigusr2 := v }

theorem Sub.Reached.refl (s : Sub) : s.Reached s := ⟨s.msgq, s.sigurg, s.sigusr2, rfl⟩

namespace World

variable {P : Params} {w w' : World} {c d : Cpu} {e : Event}

@[simp] theorem setSub_sub_self (w : World) (c : Cpu) (s : Sub) : (w.setSub c s).sub c = s :=
  Function.update_self ..

theorem setSub_sub_of_ne (w : World) (s : Sub) (h : d ≠ c) : (w.setSub c s).sub d = w.sub d :=
  Function.update_of_ne h ..

/-! ### The main scheduler -/

/-- The termination messages that have not been counted. -/
def acks (l : List ProcessData) : List ProcessData := l.filter fun pd => pd.mtype = 6

/-- The other messages. -/
def replies (l : List ProcessData) : List ProcessData := l.filter fun pd => pd.mtype ≠ 6

/-- The main scheduler has counted the termination messages. -/
def counted (w : World) : World :=
  { w with
    main := { w.main with subsTerminated := w.main.subsTerminated + (acks w.resp).length }
    resp := replies w.resp }

/-- **What the main scheduler can do.** -/
inductive Mains (P : Params) (w : World) : World → Prop
  /-- The loop is left. -/
  | leave (hpc : w.main.pc = .top) (hgo : w.main.goesOn = false) : Mains P w (w.goto .leave)
  /-- The clock has not moved. -/
  | spin (hpc : w.main.pc = .top) (hgo : w.main.goesOn = true) (hold : w.clock = w.main.lastTick) :
      Mains P w w.counted
  /-- A turn begins. -/
  | begin (hpc : w.main.pc = .top) (hgo : w.main.goesOn = true)
      (hnew : w.clock ≠ w.main.lastTick) :
      Mains P w { w.counted with main := { w.counted.main with
        lastTick := w.clock, now := w.clock, pc := .shut } }
  /-- The gate is closed. -/
  | shut (hpc : w.main.pc = .shut) : Mains P w ({ w with gate := 0 }.goto
      (if w.main.receivingProcesses then .receive else Main.behindReceive w.main.now))
  /-- A process is received. -/
  | arrive {msg : ProcessData} {rest : List ProcessData} (hpc : w.main.pc = .receive)
      (hrcv : MsgQueue.rcv ProcessData.mtype (-5) w.msgq = some (msg, rest)) (h1 : msg.mtype = 1) :
      Mains P w { w with
        msgq := rest
        main := { w.main with
          readyQueue := Queue.enqueue w.main.readyQueue (createPCB msg)
          perf := RRState.firstArrivalOf w.main.perf msg } }
  /-- The message for the tick, or for a later one. -/
  | sync {msg : ProcessData} {rest : List ProcessData} (hpc : w.main.pc = .receive)
      (hrcv : MsgQueue.rcv ProcessData.mtype (-5) w.msgq = some (msg, rest)) (h2 : msg.mtype = 2)
      (hnew : msg.arrival ≥ w.main.now) :
      Mains P w ({ w with msgq := rest }.goto (Main.behindReceive w.main.now))
  /-- The last message. -/
  | last {msg : ProcessData} {rest : List ProcessData} (hpc : w.main.pc = .receive)
      (hrcv : MsgQueue.rcv ProcessData.mtype (-5) w.msgq = some (msg, rest)) (h5 : msg.mtype = 5) :
      Mains P w { w with
        msgq := rest
        main := { w.main with
          receivingProcesses := false, pc := Main.behindReceive w.main.now } }
  /-- A message that is not acted on. -/
  | drop {msg : ProcessData} {rest : List ProcessData} (hpc : w.main.pc = .receive)
      (hrcv : MsgQueue.rcv ProcessData.mtype (-5) w.msgq = some (msg, rest)) (h1 : msg.mtype ≠ 1)
      (h5 : msg.mtype ≠ 5) (h2 : msg.mtype = 2 → msg.arrival < w.main.now) :
      Mains P w { w with msgq := rest }
  /-- Whether there is anything to route. -/
  | nothing (hpc : w.main.pc = .load) (hr : w.main.readyQueue = []) : Mains P w (w.goto .check)
  | load (hpc : w.main.pc = .load) (hr : w.main.readyQueue ≠ []) :
      Mains P w (w.goto (.route w.load))
  /-- A process is routed. -/
  | route {l : Load} {x : PCB} {rest : List PCB} (hpc : w.main.pc = .route l)
      (hr : w.main.readyQueue = x :: rest) :
      Mains P w { w.sendProcessMsg (Main.routeTo l) (pcbToProcessData x 11) 1 with
        main := { w.main with
          readyQueue := rest, pc := .route (Main.project l (Main.routeTo l) x.runtime) }
        routed := w.routed ++ [x.id] }
  | routed {l : Load} (hpc : w.main.pc = .route l) (hr : w.main.readyQueue = []) :
      Mains P w (w.goto (.publish l))
  | publish {l : Load} (hpc : w.main.pc = .publish l) : Mains P w ({ w with load := l }.goto .check)
  /-- Whether the threshold is checked in this tick. -/
  | crash (hpc : w.main.pc = .check) (hN : P.N = 0) : Mains P w (w.goto .crashed)
  | check (hpc : w.main.pc = .check) (hN : P.N ≠ 0) (hdue : w.clock % P.N = 0 ∨ w.main.stalled) :
      Mains P w (w.goto .threshold)
  | pass (hpc : w.main.pc = .check) (hN : P.N ≠ 0)
      (hdue : ¬(w.clock % P.N = 0 ∨ w.main.stalled)) : Mains P w (w.goto .opening)
  /-- Whether the loads differ too much. -/
  | above (hpc : w.main.pc = .threshold) (hM : Main.diff w.load > P.M) :
      Mains P w { w with main := { w.main with
        stalled := true, pc := .steal (Main.busier w.load) w.load } }
  | below (hpc : w.main.pc = .threshold) (hM : ¬Main.diff w.load > P.M) :
      Mains P w { w with main := { w.main with stalled := false, pc := .opening } }
  /-- The command. -/
  | steal {b : Cpu} {read : Load} (hpc : w.main.pc = .steal b read) :
      Mains P w ((w.setSub b { w.sub b with sigurg := true }).goto (.await b read))
  /-- The reply: there is no process to be given back, or there is one. -/
  | refused {b : Cpu} {read : Load} {resp : ProcessData} {rest : List ProcessData}
      (hpc : w.main.pc = .await b read) (hrcv : w.resp = resp :: rest) (h12 : resp.mtype = 12) :
      Mains P w ({ w with resp := rest }.goto .opening)
  | reply {b : Cpu} {read : Load} {resp : ProcessData} {rest : List ProcessData}
      (hpc : w.main.pc = .await b read) (hrcv : w.resp = resp :: rest) (h12 : resp.mtype ≠ 12) :
      Mains P w ({ w with resp := rest }.goto (.resend b read resp))
  /-- The process is sent to the other CPU. -/
  | resend {b : Cpu} {read : Load} {resp : ProcessData} (hpc : w.main.pc = .resend b read resp) :
      Mains P w ((w.sendProcessMsg b.other resp 1).goto (.reflect b read resp.runtime))
  | reflect {b : Cpu} {read : Load} {moved : ℤ} (hpc : w.main.pc = .reflect b read moved) :
      Mains P w ({ w with load := Main.reflect read b moved }.goto .stall)
  | stall (hpc : w.main.pc = .stall) :
      Mains P w ({ w with sub := fun c => { w.sub c with sigusr2 := true } }.goto .waitStart)
  | waitStart (hpc : w.main.pc = .waitStart) : Mains P w (w.goto (.wait (w.clock + 3)))
  | waited {curr : ℤ} (hpc : w.main.pc = .wait curr) (hcurr : curr ≤ w.clock) :
      Mains P w (w.goto .opening)
  /-- The gate is opened. -/
  | opening (hpc : w.main.pc = .opening) : Mains P w ({ w with gate := 2 }.goto .bottom)
  /-- The end of the loop. -/
  | bottom {pc : MainPc} (hpc : w.main.pc = .bottom)
      (hterm : (w.main.receivingProcesses = false ∧ w.main.termSentToSubs = false ∧
        pc = .term .one) ∨
        (¬(w.main.receivingProcesses = false ∧ w.main.termSentToSubs = false) ∧ pc = .top)) :
      Mains P w { w with main := { w.main with
        waitSub := (w.load .one).totalRT + (w.load .two).totalRT, pc := pc } }
  | term₁ (hpc : w.main.pc = .term .one) :
      Mains P w ((w.sendProcessMsg .one (bareMsg 5) 5).goto (.term .two))
  | term₂ (hpc : w.main.pc = .term .two) :
      Mains P w { w.sendProcessMsg .two (bareMsg 5) 5 with
        main := { w.main with termSentToSubs := true, pc := .top } }
  /-- The last opening of the gate. -/
  | done (hpc : w.main.pc = .leave) : Mains P w ({ w with gate := 2 }.goto .done)

theorem mainNext_cases (h : w.mainNext P = .ok w') : Mains P w w' := by
  rw [mainNext] at h
  cases hpc : w.main.pc <;> simp only [hpc, reduceCtorEq] at h
  case top =>
    obtain rfl := Except.ok.inj h
    rw [top]
    cases hgo : w.main.goesOn with
    | false => exact .leave hpc hgo
    | true =>
      rw [if_pos rfl]
      dsimp only
      split_ifs with hclk
      · exact .spin hpc hgo hclk
      · exact .begin hpc hgo hclk
  case shut => exact Except.ok.inj h ▸ .shut hpc
  case receive =>
    rw [receive] at h
    cases hrcv : MsgQueue.rcv ProcessData.mtype (-5) w.msgq with
    | none =>
      rw [hrcv] at h
      exact nomatch h
    | some r =>
      obtain ⟨msg, rest⟩ := r
      rw [hrcv] at h
      dsimp only at h
      split_ifs at h with h1 h2 hnew h5
      · exact Except.ok.inj h ▸ .arrive hpc hrcv h1
      · exact Except.ok.inj h ▸ .sync hpc hrcv h2 hnew
      · exact Except.ok.inj h ▸ .drop hpc hrcv h1 (by omega) fun _ => by omega
      · exact Except.ok.inj h ▸ .last hpc hrcv h5
      · exact Except.ok.inj h ▸ .drop hpc hrcv h1 h5 fun hc => absurd hc h2
  case load =>
    obtain rfl := Except.ok.inj h
    cases hr : w.main.readyQueue with
    | nil => exact .nothing hpc hr
    | cons x rest => exact .load hpc (by rw [hr]; exact List.cons_ne_nil x rest)
  case route l =>
    obtain rfl := Except.ok.inj h
    rw [route]
    cases hr : w.main.readyQueue with
    | nil => exact .routed hpc hr
    | cons x rest => exact .route hpc hr
  case publish l => exact Except.ok.inj h ▸ .publish hpc
  case check =>
    obtain rfl := Except.ok.inj h
    rw [check]
    split_ifs with hN hdue
    · exact .crash hpc hN
    · exact .check hpc hN hdue
    · exact .pass hpc hN hdue
  case threshold =>
    obtain rfl := Except.ok.inj h
    rw [threshold]
    split_ifs with hM
    · exact .above hpc hM
    · exact .below hpc hM
  case steal b read => exact Except.ok.inj h ▸ .steal hpc
  case await b read =>
    rw [await] at h
    cases hresp : w.resp with
    | nil =>
      rw [hresp] at h
      exact nomatch h
    | cons resp rest =>
      rw [hresp] at h
      change (if resp.mtype = 12 then _ else _) = _ at h
      split_ifs at h with h12
      · exact Except.ok.inj h ▸ .refused hpc hresp h12
      · exact Except.ok.inj h ▸ .reply hpc hresp h12
  case resend b read resp => exact Except.ok.inj h ▸ .resend hpc
  case reflect b read moved => exact Except.ok.inj h ▸ .reflect hpc
  case stall => exact Except.ok.inj h ▸ .stall hpc
  case waitStart => exact Except.ok.inj h ▸ .waitStart hpc
  case wait curr =>
    split_ifs at h with hcurr
    exact Except.ok.inj h ▸ .waited hpc (not_lt.mp hcurr)
  case opening => exact Except.ok.inj h ▸ .opening hpc
  case bottom =>
    obtain rfl := Except.ok.inj h
    rw [bottom]
    dsimp only
    simp only [Bool.not_eq_eq_eq_not, Bool.not_true]
    split_ifs with hterm
    · exact .bottom hpc (Or.inl ⟨hterm.1, hterm.2, rfl⟩)
    · exact .bottom hpc (Or.inr ⟨hterm, rfl⟩)
  case term c =>
    cases c
    · exact Except.ok.inj h ▸ .term₁ hpc
    · exact Except.ok.inj h ▸ .term₂ hpc
  case leave => exact Except.ok.inj h ▸ .done hpc

theorem sendProcessMsg_reached (w : World) (c : Cpu) (pd : ProcessData) (t : ℤ) (d : Cpu) :
    (w.sub d).Reached ((w.sendProcessMsg c pd t).sub d) := by
  by_cases h : d = c
  · subst h
    exact ⟨_, _, _, setSub_sub_self ..⟩
  · rw [sendProcessMsg, setSub_sub_of_ne _ _ h]
    exact Sub.Reached.refl _

/-- **The main scheduler reaches the sub-schedulers by messages and signals.** -/
theorem Mains.reached (h : Mains P w w') (d : Cpu) : (w.sub d).Reached (w'.sub d) := by
  cases h with
  | route hpc hr => exact sendProcessMsg_reached w ..
  | resend hpc => exact sendProcessMsg_reached w ..
  | term₁ hpc => exact sendProcessMsg_reached w ..
  | term₂ hpc => exact sendProcessMsg_reached w ..
  | @steal b read hpc =>
    by_cases hd : d = b
    · subst hd
      exact ⟨_, _, _, setSub_sub_self ..⟩
    · exact (setSub_sub_of_ne w _ hd : _) ▸ Sub.Reached.refl _
  | stall hpc => exact ⟨_, _, _, rfl⟩
  | _ => exact Sub.Reached.refl _

end World

/-! ### The sub-schedulers -/

namespace Sub

/-- **`finishLogic`**: the child of the running process is gone, and so is the process. -/
theorem finishLogic_eq_ok {s s' : Sub} {clk : ℤ} (h : s.finishLogic clk = .ok s') :
    ∃ x l p, s.currProcess = some x ∧ s.waitpid = .ok () ∧ s' = { s with
      currProcess := none
      contextSwitchUntil := s.currentTickTime + 1
      log := l
      perf := p
      processFinished := false
      child := none
      finished := s.finished ++ [x.id] } := by
  rw [finishLogic] at h
  cases hcurr : s.currProcess with
  | none =>
    rw [hcurr] at h
    exact nomatch h
  | some x =>
    rw [hcurr] at h
    obtain ⟨u, hu, h⟩ := bind_eq_ok.mp h
    exact ⟨x, _, _, rfl, hu, (Except.ok.inj h).symm⟩

/-- **`runProcess`**: a new child for the running process, or its child goes on. -/
theorem runProcess_eq_ok {s s' : Sub} {clk : ℤ} (h : s.runProcess clk = .ok s') :
    ∃ x y l ch, s.currProcess = some x ∧ y.id = x.id ∧ s' = { s with
      shmRT := x.remainingTime
      log := l
      child := ch
      currProcess := some y } := by
  rw [runProcess] at h
  cases hcurr : s.currProcess with
  | none =>
    rw [hcurr] at h
    exact nomatch h
  | some x =>
    rw [hcurr] at h
    dsimp only at h
    split_ifs at h <;>
      exact ⟨x, _, _, _, rfl, by rfl, (Except.ok.inj h).symm⟩

/-- The end of a stall is about the running process. -/
theorem endStall_eq (s : Sub) (clk : ℤ) : ∃ st y l ch, s.endStall clk = { s with
      stalled := st, currProcess := y, log := l, child := ch } ∧
    y.map PCB.id = s.currProcess.map PCB.id := by
  rw [endStall]
  split_ifs
  · dsimp only
    split
    · exact ⟨false, s.currProcess, s.log, s.child, rfl, rfl⟩
    · next x hcurr =>
      split_ifs
      · exact ⟨false, _, _, _, rfl, by rw [hcurr]; rfl⟩
      · exact ⟨false, _, _, _, rfl, by rw [hcurr]; rfl⟩
      · exact ⟨false, s.currProcess, s.log, s.child, rfl, rfl⟩
  · exact ⟨s.stalled, s.currProcess, s.log, s.child, rfl, rfl⟩

/-- The child takes a permit, or exits. -/
theorem childStep_eq_some {s s' : Sub} (h : s.childStep = some s') : ∃ fin sem rt ch,
    s' = { s with processFinished := fin, sem := sem, shmRT := rt, child := ch } := by
  rw [childStep] at h
  split at h
  · exact nomatch h
  · split_ifs at h <;>
      exact ⟨_, _, _, _, (Option.some.inj h).symm⟩

/-- The permit for the running process. -/
theorem permit_eq (s : Sub) : ∃ n, s.permit = { s with sem := n } := by
  rw [permit]
  split_ifs
  · exact ⟨1, rfl⟩
  · exact ⟨s.sem, rfl⟩

end Sub

/-- **What a sub-scheduler can do in its own state.** It reads the clock `clk`, and `rem`, the
remaining time of the other CPU. -/
inductive Sub.Moves (clk rem : ℤ) (s : Sub) : Sub → Prop
  | start (hpc : s.pc = .start) : Moves clk rem s { s with remainingProcesses := rem, pc := .cond }
  | turn (hpc : s.pc = .cond) (hgo : s.goesOn = true) :
      Moves clk rem s { s with pc := .drain false }
  | quit (hpc : s.pc = .cond) (hgo : s.goesOn = false) :
      Moves clk rem s { s with pc := .update .leave }
  /-- There is no message, or one for a new process, or the last one, or another one. -/
  | drained {b : Bool} (hpc : s.pc = .drain b) (hq : s.msgq = []) :
      Moves clk rem s { s with pc := behindDrain b }
  | fetch {b : Bool} {pd : ProcessData} {q : List ProcessData} (hpc : s.pc = .drain b)
      (hq : s.msgq = pd :: q) (h1 : pd.mtype = 1) :
      Moves clk rem s { s with msgq := q, pc := .put b pd }
  | last {b : Bool} {pd : ProcessData} {q : List ProcessData} (hpc : s.pc = .drain b)
      (hq : s.msgq = pd :: q) (h5 : pd.mtype = 5) :
      Moves clk rem s { s with msgq := q, receivingProcesses := false, pc := behindDrain b }
  | drop {b : Bool} {pd : ProcessData} {q : List ProcessData} (hpc : s.pc = .drain b)
      (hq : s.msgq = pd :: q) (h1 : pd.mtype ≠ 1) (h5 : pd.mtype ≠ 5) :
      Moves clk rem s { s with msgq := q }
  | put {b : Bool} {pd : ProcessData} (hpc : s.pc = .put b pd) :
      Moves clk rem s { (s.noteArrival pd).receive pd with pc := .drain b }
  /-- The tick is one that has been gone through, or a new one. -/
  | old (hpc : s.pc = .tick) (hold : clk = s.lastTick) :
      Moves clk rem s { s with now := clk, currentTickTime := clk, pc := .update .spin }
  | new (hpc : s.pc = .tick) (hnew : clk ≠ s.lastTick) :
      Moves clk rem s { s with now := clk, currentTickTime := clk, pc := .finish }
  | running (hpc : s.pc = .finish) (hrun : s.processFinished = false) :
      Moves clk rem s { s with pc := .gate }
  | finish {s' : Sub} (hpc : s.pc = .finish) (hfin : s.processFinished = true)
      (hs : s.finishLogic clk = .ok s') : Moves clk rem s { s' with pc := .gate }
  /-- There is no gate at tick 0. -/
  | free (hpc : s.pc = .gate) (h0 : s.now ≤ 0) :
      Moves clk rem s { s with lastTick := s.now, pc := .drain true }
  | resume (hpc : s.pc = .resume) : Moves clk rem s { s.endStall clk with pc := .test }
  | idle (hpc : s.pc = .test) (hmay : s.mayDispatch = true) : Moves clk rem s { s with pc := .algo }
  | busy (hpc : s.pc = .test) (hmay : s.mayDispatch = false) :
      Moves clk rem s { s with pc := .permit }
  | choose (hpc : s.pc = .algo) (hcurr : s.currProcess = none) (hne : s.readyQueue ≠ []) :
      Moves clk rem s { s with pc := .dequeue }
  | skip (hpc : s.pc = .algo) (hno : ¬(s.currProcess = none ∧ s.readyQueue ≠ [])) :
      Moves clk rem s { s with pc := .clear }
  | dequeue {x : PCB} {q : List PCB} (hpc : s.pc = .dequeue) (hq : s.readyQueue = x :: q) :
      Moves clk rem s { s with
        currProcess := some x, readyQueue := q, dispatched := s.dispatched ++ [x.id], pc := .count }
  | count (hpc : s.pc = .count) : Moves clk rem s { s with
      pc := .total .run s.readyQueue.length (s.currProcess.elim 0 PCB.remainingTime) }
  | update {k : After} (hpc : s.pc = .update k) : Moves clk rem s { s with
      pc := .total k s.readyQueue.length s.runningRemainingTime }
  | total {k : After} {n r : ℤ} (hpc : s.pc = .total k n r) : Moves clk rem s { s with
      pc := .write k n (totalRemainingTime s.readyQueue + r) }
  | run {s' : Sub} (hpc : s.pc = .run) (hs : s.runProcess clk = .ok s') :
      Moves clk rem s { s' with pc := .clear }
  | clear (hpc : s.pc = .clear) :
      Moves clk rem s { s with contextSwitchUntil := -1, pc := .permit }
  | permit (hpc : s.pc = .permit) : Moves clk rem s { s.permit with pc := .update .bottom }
  | remaining (hpc : s.pc = .remaining) :
      Moves clk rem s { s with remainingProcesses := rem, pc := .cond }
  | closing (hpc : s.pc = .closing) : Moves clk rem s { s with pc := .exited }

theorem Sub.drain_moves {s : Sub} {b : Bool} {clk rem : ℤ} (hpc : s.pc = .drain b) :
    s.Moves clk rem (s.drain b) := by
  rw [drain]
  cases hq : s.msgq with
  | nil =>
    have h : s.Moves clk rem { s with pc := behindDrain b } := .drained hpc hq
    rw [hq] at h
    exact h
  | cons pd q =>
    change s.Moves clk rem (if pd.mtype = 5 then _ else _)
    split_ifs with h5 h1
    · exact .last hpc hq h5
    · exact .fetch hpc hq h1
    · exact .drop hpc hq h1 h5

namespace World

/-- **What a sub-scheduler can do.** Beyond its own state there are the gate, its slot of the
load table, and the response queue. -/
inductive Subs (w : World) (c : Cpu) : World → Prop
  | own {s : Sub} (h : (w.sub c).Moves w.clock (w.load c.other).totalRT s) : Subs w c (w.setSub c s)
  | pass (hpc : (w.sub c).pc = .gate) (h0 : 0 < (w.sub c).now) (hgate : w.gate ≠ 0) :
      Subs w c { w.setSub c { w.sub c with lastTick := (w.sub c).now, pc := .drain true } with
        gate := w.gate - 1 }
  | write {k : After} {n t : ℤ} (hpc : (w.sub c).pc = .write k n t) :
      Subs w c { w.setSub c { w.sub c with pc := Sub.behindWrite k } with
        load := Function.update w.load c { count := n, totalRT := t } }
  | ack (hpc : (w.sub c).pc = .ack) :
      Subs w c { w.setSub c { w.sub c with pc := .closing } with resp := w.resp ++ [bareMsg 6] }

theorem subNext_cases (h : w.subNext c = .ok w') : Subs w c w' := by
  rw [subNext] at h
  cases hpc : (w.sub c).pc <;> simp only [hpc, reduceCtorEq] at h
  case start => exact Except.ok.inj h ▸ .own (.start hpc)
  case cond =>
    obtain rfl := Except.ok.inj h
    cases hgo : (w.sub c).goesOn with
    | true => exact .own (.turn hpc hgo)
    | false => exact .own (.quit hpc hgo)
  case drain b => exact Except.ok.inj h ▸ .own (Sub.drain_moves hpc)
  case put b pd => exact Except.ok.inj h ▸ .own (.put hpc)
  case tick =>
    obtain rfl := Except.ok.inj h
    by_cases hclk : w.clock = (w.sub c).lastTick
    · rw [if_pos hclk]
      exact .own (.old hpc hclk)
    · rw [if_neg hclk]
      exact .own (.new hpc hclk)
  case finish =>
    cases hfin : (w.sub c).processFinished with
    | true =>
      rw [if_pos hfin] at h
      obtain ⟨s, hs, h⟩ := bind_eq_ok.mp h
      exact Except.ok.inj h ▸ .own (.finish hpc hfin hs)
    | false =>
      rw [if_neg (by rw [hfin]; exact Bool.false_ne_true)] at h
      exact Except.ok.inj h ▸ .own (.running hpc hfin)
  case gate =>
    rw [passGate] at h
    dsimp only at h
    split_ifs at h with h0 hgate
    · exact Except.ok.inj h ▸ .pass hpc h0 hgate
    · exact Except.ok.inj h ▸ .own (.free hpc (not_lt.mp h0))
  case resume => exact Except.ok.inj h ▸ .own (.resume hpc)
  case test =>
    obtain rfl := Except.ok.inj h
    cases hmay : (w.sub c).mayDispatch with
    | true => exact .own (.idle hpc hmay)
    | false => exact .own (.busy hpc hmay)
  case algo =>
    obtain rfl := Except.ok.inj h
    by_cases hc : (w.sub c).currProcess = none ∧ (w.sub c).readyQueue ≠ []
    · rw [if_pos ⟨hc.1, by simpa [Queue.isEmpty] using hc.2⟩]
      exact .own (.choose hpc hc.1 hc.2)
    · rw [if_neg (by simpa [Queue.isEmpty] using hc)]
      exact .own (.skip hpc hc)
  case dequeue =>
    obtain ⟨s, hs, h⟩ := bind_eq_ok.mp h
    obtain rfl := Except.ok.inj h
    rw [Sub.dispatch] at hs
    cases hq : (w.sub c).readyQueue with
    | nil =>
      rw [hq] at hs
      exact nomatch hs
    | cons x q =>
      rw [hq] at hs
      obtain rfl := Except.ok.inj hs
      exact .own (.dequeue hpc hq)
  case count => exact Except.ok.inj h ▸ .own (.count hpc)
  case update k => exact Except.ok.inj h ▸ .own (.update hpc)
  case total k n r => exact Except.ok.inj h ▸ .own (.total hpc)
  case write k n t => exact Except.ok.inj h ▸ .write hpc
  case run =>
    obtain ⟨s, hs, h⟩ := bind_eq_ok.mp h
    exact Except.ok.inj h ▸ .own (.run hpc hs)
  case clear => exact Except.ok.inj h ▸ .own (.clear hpc)
  case permit => exact Except.ok.inj h ▸ .own (.permit hpc)
  case remaining => exact Except.ok.inj h ▸ .own (.remaining hpc)
  case ack => exact Except.ok.inj h ▸ .ack hpc
  case closing => exact Except.ok.inj h ▸ .own (.closing hpc)

end World

/-! ### The handlers -/

/-- The processes in a message queue, up to the last message. -/
def news : List ProcessData → List ProcessData
  | [] => []
  | pd :: q => if pd.mtype = 5 then [] else if pd.mtype = 1 then pd :: news q else news q

/-- What is behind the last message. -/
def left : List ProcessData → List ProcessData
  | [] => []
  | pd :: q => if pd.mtype = 5 then q else left q

namespace Sub

/-- Either of the loops of the handlers receives what is in the queue, up to the last
message. -/
theorem drainAll_eq {f : Sub → ProcessData → Sub}
    (hf : ∀ s pd, ∃ v, f s pd = { s.receive pd with perf := v }) :
    ∀ (q : List ProcessData) (s : Sub), ∃ v r, drainAll f q s = { s with
      readyQueue := s.readyQueue ++ (news q).map createPCB
      arrived := s.arrived ++ (news q).map ProcessData.id
      receivingProcesses := r
      perf := v
      msgq := left q } := by
  intro q
  induction q with
  | nil =>
    intro s
    refine ⟨s.perf, s.receivingProcesses, ?_⟩
    simp only [drainAll, news, left, List.map_nil, List.append_nil]
  | cons pd q ih =>
    intro s
    rw [drainAll, news, left]
    by_cases h5 : pd.mtype = 5
    · simp only [if_pos h5, List.map_nil, List.append_nil]
      exact ⟨s.perf, false, rfl⟩
    · simp only [if_neg h5]
      by_cases h1 : pd.mtype = 1
      · obtain ⟨v, hv⟩ := hf s pd
        obtain ⟨v', r, hq⟩ := ih (f s pd)
        refine ⟨v', r, ?_⟩
        simp only [if_pos h1]
        rw [hq, hv]
        simp only [receive, Queue.enqueue, List.map_cons, List.append_assoc, List.singleton_append]
      · obtain ⟨v, r, hq⟩ := ih s
        refine ⟨v, r, ?_⟩
        simp only [if_neg h1]
        exact hq

/-- The ready processes when `steal_handler` looks for the last one. -/
def readyToSteal (s : Sub) : List PCB := s.readyQueue ++ (news s.msgq).map createPCB

/-- **`steal_handler`**: it receives what there is, and gives back the last ready process, or
has none to give back. -/
theorem stealHandler_cases (s : Sub) (clk : ℤ) :
    (s.readyToSteal = [] ∧ ∃ v r, s.stealHandler clk = ({ s with
      readyQueue := []
      arrived := s.arrived ++ (news s.msgq).map ProcessData.id
      receivingProcesses := r
      perf := v
      msgq := left s.msgq
      sigurg := false }, bareMsg 12)) ∨
    ∃ x q, s.readyToSteal = q ++ [x] ∧ ∃ v r, s.stealHandler clk = ({ s with
      readyQueue := q
      arrived := s.arrived ++ (news s.msgq).map ProcessData.id
      receivingProcesses := r
      perf := v
      msgq := left s.msgq
      log := s.log ++ [RRState.lineOf { x with lState := .stolen } clk]
      stolen := s.stolen ++ [x.id]
      sigurg := false }, pcbToProcessData x 11) := by
  have hf : ∀ (s : Sub) (pd : ProcessData), ∃ v, s.receive pd = { s.receive pd with perf := v } :=
    fun s pd => ⟨s.perf, rfl⟩
  obtain ⟨v, r, hd⟩ := drainAll_eq hf s.msgq s
  rw [stealHandler, hd, stealRear]
  rcases List.eq_nil_or_concat (s.readyToSteal) with hnil | ⟨q, x, hq⟩
  · refine Or.inl ⟨hnil, v, r, ?_⟩
    have hdeq : Queue.dequeueRear (s.readyQueue ++ (news s.msgq).map createPCB) = none := by
      rw [← readyToSteal, hnil]
      rfl
    simp only [hdeq]
    rw [← readyToSteal, hnil]
  · refine Or.inr ⟨x, q, by rw [hq, List.concat_eq_append], v, r, ?_⟩
    have hdeq : Queue.dequeueRear (s.readyQueue ++ (news s.msgq).map createPCB) = some (x, q) := by
      rw [← readyToSteal, hq, List.concat_eq_append, Queue.dequeueRear_concat]
    simp only [hdeq]

/-- `stall_sig` receives what there is once it has stopped the running process. -/
theorem stallSig_of {s : Sub} {clk : ℤ} {y : Option PCB} {l : List LogLine} {ch : Option Child}
    (hc : s.stallCurrent clk = { s with currProcess := y, log := l, child := ch }) :
    ∃ v r, s.stallSig clk = { s with
      currProcess := y
      log := l
      child := ch
      stalled := true
      sigusr2 := false
      readyQueue := s.readyToSteal
      arrived := s.arrived ++ (news s.msgq).map ProcessData.id
      receivingProcesses := r
      perf := v
      msgq := left s.msgq
      stallEndTime := clk + 3 } := by
  have hf : ∀ (s : Sub) (pd : ProcessData),
      ∃ v, (s.noteArrival pd).receive pd = { s.receive pd with perf := v } := fun s pd => ⟨_, rfl⟩
  rw [stallSig, hc]
  obtain ⟨v, r, hd⟩ := drainAll_eq hf s.msgq
    { s with currProcess := y, log := l, child := ch, stalled := true, sigusr2 := false }
  refine ⟨v, r, ?_⟩
  dsimp only
  rw [hd]
  rfl

/-- **`stall_sig`**: it stops the running process, and receives what there is. -/
theorem stallSig_eq (s : Sub) (clk : ℤ) : ∃ y v r l ch, s.stallSig clk = { s with
      currProcess := y
      log := l
      child := ch
      stalled := true
      sigusr2 := false
      readyQueue := s.readyToSteal
      arrived := s.arrived ++ (news s.msgq).map ProcessData.id
      receivingProcesses := r
      perf := v
      msgq := left s.msgq
      stallEndTime := clk + 3 } ∧ y.map PCB.id = s.currProcess.map PCB.id := by
  have hc : ∃ y l ch, s.stallCurrent clk = { s with currProcess := y, log := l, child := ch } ∧
      y.map PCB.id = s.currProcess.map PCB.id := by
    rw [stallCurrent]
    split
    · exact ⟨s.currProcess, s.log, s.child, rfl, rfl⟩
    · next x hcurr =>
      dsimp only
      split_ifs
      · exact ⟨_, _, _, rfl, by rw [hcurr]; rfl⟩
      · exact ⟨s.currProcess, s.log, s.child, rfl, rfl⟩
  obtain ⟨y, l, ch, hc, hid⟩ := hc
  obtain ⟨v, r, h⟩ := stallSig_of hc
  exact ⟨y, v, r, l, ch, h, hid⟩

end Sub

namespace World

/-! ### The system -/

/-- **What a step can be.** -/
inductive Steps (P : Params) (w : World) : Event → World → Prop
  | tick : Steps P w .tick { w with clock := w.clock + 1 }
  | main {w' : World} (h : Mains P w w') : Steps P w .main w'
  | sub {c : Cpu} {w' : World} (h : Subs w c w') : Steps P w (.sub c) w'
  | steal {c : Cpu} (hsig : (w.sub c).sigurg = true) (hpc : (w.sub c).pc ≠ .exited) :
      Steps P w (.steal c) (w.steal c)
  | stall {c : Cpu} (hsig : (w.sub c).sigusr2 = true) (hpc : (w.sub c).pc ≠ .exited) :
      Steps P w (.stall c) (w.setSub c ((w.sub c).stallSig w.clock))
  | child {c : Cpu} {s : Sub} (h : (w.sub c).childStep = some s) :
      Steps P w (.child c) (w.setSub c s)
  | observe {g : Generator} (hq : g.queue = w.gen.queue) (hs : g.sent = w.gen.sent)
      (hd : g.done = w.gen.done) : Steps P w .observe { w with gen := g }
  | send {t : ℤ} {pd : ProcessData} {q : List ProcessData} (ht : w.gen.current = some t)
      (hq : w.gen.queue = pd :: q) (hdue : pd.arrival ≤ t) :
      Steps P w .send (w.post pd { w.gen with queue := q, sent := w.gen.sent ++ [pd] })
  | sync {t : ℤ} (ht : w.gen.current = some t) (hq : ∀ pd ∈ w.gen.queue.head?, t < pd.arrival) :
      Steps P w .sync (w.post (CpuScheduler.World.syncMsg t)
        { w.gen with lastTime := t, current := none })
  | last (hq : w.gen.queue = []) (ht : w.gen.current = none) (hd : w.gen.done = false) :
      Steps P w .last (w.post CpuScheduler.World.lastMsg { w.gen with done := true })

theorem next_cases (h : next P w e = some w') : Steps P w e w' := by
  cases e with
  | tick => exact Option.some.inj h ▸ .tick
  | main => exact .main (mainNext_cases (toOption_eq_some.mp h))
  | sub c => exact .sub (subNext_cases (toOption_eq_some.mp h))
  | steal c =>
    rw [next] at h
    split_ifs at h with hc
    exact Option.some.inj h ▸ .steal hc.1 hc.2
  | stall c =>
    rw [next] at h
    split_ifs at h with hc
    exact Option.some.inj h ▸ .stall hc.1 hc.2
  | child c =>
    obtain ⟨s, hs, rfl⟩ := Option.map_eq_some_iff.mp h
    exact .child hs
  | observe =>
    rw [next] at h
    dsimp only at h
    split_ifs at h <;> exact Option.some.inj h ▸ .observe rfl rfl rfl
  | send =>
    rw [next] at h
    split at h
    · next t pd q ht hq =>
      split_ifs at h with hdue
      exact Option.some.inj h ▸ .send ht hq hdue
    · exact nomatch h
  | sync =>
    rw [next] at h
    split at h
    · next t ht =>
      split_ifs at h with hq
      exact Option.some.inj h ▸ .sync ht hq
    · exact nomatch h
  | last =>
    rw [next] at h
    split_ifs at h with hq
    exact Option.some.inj h ▸ .last hq.1 hq.2.1 hq.2.2

/-- **What can happen to a sub-scheduler** in a step. -/
inductive Happens (w : World) (c : Cpu) : Event → Sub → Prop
  /-- Somebody else has moved. -/
  | reached {e : Event} {s : Sub} (h : (w.sub c).Reached s) : Happens w c e s
  | own {s : Sub} (h : (w.sub c).Moves w.clock (w.load c.other).totalRT s) : Happens w c (.sub c) s
  | pass (hpc : (w.sub c).pc = .gate) (h0 : 0 < (w.sub c).now) (hgate : w.gate ≠ 0) :
      Happens w c (.sub c) { w.sub c with lastTick := (w.sub c).now, pc := .drain true }
  | write {k : After} {n t : ℤ} (hpc : (w.sub c).pc = .write k n t) :
      Happens w c (.sub c) { w.sub c with pc := Sub.behindWrite k }
  | ack (hpc : (w.sub c).pc = .ack) : Happens w c (.sub c) { w.sub c with pc := .closing }
  | steal (hsig : (w.sub c).sigurg = true) (hpc : (w.sub c).pc ≠ .exited) :
      Happens w c (.steal c) ((w.sub c).stealHandler w.clock).1
  | stall (hsig : (w.sub c).sigusr2 = true) (hpc : (w.sub c).pc ≠ .exited) :
      Happens w c (.stall c) ((w.sub c).stallSig w.clock)
  | child {s : Sub} (h : (w.sub c).childStep = some s) : Happens w c (.child c) s

/-- A move of one sub-scheduler does not touch the other. -/
theorem Happens.of_setSub {s : Sub} {w₁ : World} (hs : Happens w c e s)
    (h₁ : w₁.sub = Function.update w.sub c s) (d : Cpu) : Happens w d e (w₁.sub d) := by
  rw [h₁]
  by_cases hd : d = c
  · subst hd
    rw [Function.update_self]
    exact hs
  · rw [Function.update_of_ne hd]
    exact .reached (.refl _)

theorem Steps.happens (h : Steps P w e w') (d : Cpu) : Happens w d e (w'.sub d) := by
  cases h with
  | main h => exact .reached (h.reached d)
  | sub h =>
    cases h with
    | own hs => exact (Happens.own hs).of_setSub rfl d
    | pass hpc h0 hgate => exact (Happens.pass hpc h0 hgate).of_setSub rfl d
    | write hpc => exact (Happens.write hpc).of_setSub rfl d
    | ack hpc => exact (Happens.ack hpc).of_setSub rfl d
  | steal hsig hpc => exact (Happens.steal hsig hpc).of_setSub rfl d
  | stall hsig hpc => exact (Happens.stall hsig hpc).of_setSub rfl d
  | child hs => exact (Happens.child hs).of_setSub rfl d
  | _ => exact .reached (.refl _)

/-- Nobody else moves the main scheduler. -/
theorem Steps.main_eq (h : Steps P w e w') (he : e ≠ .main) : w'.main = w.main := by
  cases h with
  | main h => exact absurd rfl he
  | sub h => cases h <;> rfl
  | _ => rfl

/-- Nobody else moves a sub-scheduler to another place. -/
theorem Happens.place {s : Sub} (h : Happens w c e s) (he : e ≠ .sub c) :
    s.pc = (w.sub c).pc ∧ s.now = (w.sub c).now ∧ s.lastTick = (w.sub c).lastTick := by
  cases h with
  | reached hs =>
    obtain ⟨q, u, v, rfl⟩ := hs
    exact ⟨rfl, rfl, rfl⟩
  | steal hsig hpc =>
    rcases (w.sub c).stealHandler_cases w.clock with ⟨-, v, r, hs⟩ | ⟨x, q, -, v, r, hs⟩
    · rw [hs]
      exact ⟨rfl, rfl, rfl⟩
    · rw [hs]
      exact ⟨rfl, rfl, rfl⟩
  | stall hsig hpc =>
    obtain ⟨y, v, r, l, ch, hs, -⟩ := (w.sub c).stallSig_eq w.clock
    rw [hs]
    exact ⟨rfl, rfl, rfl⟩
  | child hs =>
    obtain ⟨fin, sem, rt, ch, rfl⟩ := Sub.childStep_eq_some hs
    exact ⟨rfl, rfl, rfl⟩
  | _ => exact absurd rfl he

end World

end Dual

end CpuScheduler
