import CpuScheduler.Log
import CpuScheduler.Dual.Termination

/-!
# The logs of the two CPUs

A sub-scheduler does not preempt: its log is the record of one process after the other
(`CpuScheduler.Timeline.Serial`), in the order in which they have come
(`CpuScheduler.Dual.World.reachable_serial`). Between the start and the finish of a process there
are only the stops and resumptions of the stalls. They need not come in pairs: a stall that begins
while the process is being loaded stops nobody and resumes the process all the same, and a process
that has signalled before it is stopped is finished while it is stopped. The line of a process that
is stolen is not an act of the processor.

In an orderly run no process is started twice, on whichever CPU
(`CpuScheduler.Dual.World.orderly_started`).
-/

namespace CpuScheduler

namespace Dual

open Fallible Timeline

namespace Sub

variable {clk rem : ℤ} {s s' : Sub} {x y : PCB} {i : ℤ}

/-! ### The process that is being loaded -/

/-- The process that has been started. -/
def running (s : Sub) : Option ℤ := (s.currProcess.filter fun x => x.pid ≠ -1).map PCB.id

/-- The process that has been dispatched and not started. -/
def loaded (s : Sub) : Option ℤ := (s.currProcess.filter fun x => x.pid = -1).map PCB.id

theorem running_of_pid (hx : s.currProcess = some x) (hp : x.pid ≠ -1) :
    s.running = some x.id ∧ s.loaded = none := by
  rw [running, loaded, hx, Option.filter_some_pos (by simpa using hp),
    Option.filter_some_neg (by simpa using hp)]
  exact ⟨rfl, rfl⟩

theorem loaded_of_pid (hx : s.currProcess = some x) (hp : x.pid = -1) :
    s.running = none ∧ s.loaded = some x.id := by
  rw [running, loaded, hx, Option.filter_some_neg (by simpa using hp),
    Option.filter_some_pos (by simpa using hp)]
  exact ⟨rfl, rfl⟩

theorem running_of_none (hx : s.currProcess = none) : s.running = none ∧ s.loaded = none := by
  rw [running, loaded, hx]
  exact ⟨rfl, rfl⟩

/-- **A process is started when it has been loaded**, and not before. -/
structure Loads (s : Sub) : Prop where
  loading : s.pc.phase = .loading → ∃ x, s.currProcess = some x ∧ x.pid = -1
  started : s.pc.phase ≠ .loading → ∀ x, s.currProcess = some x → x.pid ≠ -1

theorem Loads.keep (h : Loads s) (hc : s'.currProcess = s.currProcess)
    (hp : s'.pc.phase = .loading ↔ s.pc.phase = .loading) : Loads s' where
  loading hl := hc ▸ h.loading (hp.mp hl)
  started hl := hc ▸ h.started fun h => hl (hp.mpr h)

/-! ### What is written -/

/-- `runProcess` on a process that has not been started. -/
theorem runProcess_start (hx : s.currProcess = some x) (hp : x.pid = -1)
    (h : s.runProcess clk = .ok s') : ∃ y, y.id = x.id ∧ y.pid = 1 ∧ y.lState = .start ∧
      s' = { s with
        shmRT := x.remainingTime
        log := s.log ++ [RRState.lineOf y clk]
        child := some { remainingtime := x.remainingTime, stopped := false, exited := false }
        currProcess := some y } := by
  rw [runProcess, hx] at h
  dsimp only at h
  by_cases hs : x.startTime = -1
  · simp only [if_pos hs, if_pos hp] at h
    refine ⟨_, ?_, ?_, ?_, (Except.ok.inj h).symm⟩ <;> rfl
  · simp only [if_neg hs, if_pos hp] at h
    refine ⟨_, ?_, ?_, ?_, (Except.ok.inj h).symm⟩ <;> rfl

/-- The end of a stall: there is none, or there is nobody to be resumed, or the running process is
resumed. -/
theorem endStall_line (s : Sub) (clk : ℤ) : s.endStall clk = s ∨
    (s.running = none ∧ s.endStall clk = { s with stalled := false }) ∨
    ∃ x y, s.stalled = true ∧ s.currProcess = some x ∧ x.pid ≠ -1 ∧ y.id = x.id ∧ y.pid = x.pid ∧
      y.lState = .resume ∧ s.endStall clk = { s with
        stalled := false
        child := s.child.map fun c => { c with stopped := false }
        currProcess := some y
        log := s.log ++ [RRState.lineOf y clk] } := by
  rw [endStall]
  split_ifs with hend
  · dsimp only
    cases hx : s.currProcess with
    | none => exact Or.inr (Or.inl ⟨(running_of_none hx).1, rfl⟩)
    | some x =>
      dsimp only
      by_cases hp : x.pid = -1
      · rw [if_neg (not_not.mpr hp)]
        exact Or.inr (Or.inl ⟨(loaded_of_pid hx hp).1, rfl⟩)
      · rw [if_pos hp]
        refine Or.inr (Or.inr ⟨x, _, hend.1, rfl, hp, ?_, ?_, ?_, rfl⟩) <;> rfl
  · exact Or.inl rfl

/-- The begin of a stall: it has begun, or there is nobody to be stopped, or the running process is
stopped. -/
theorem stallCurrent_line (s : Sub) (clk : ℤ) :
    ((s.stalled = true ∨ s.running = none) ∧ s.stallCurrent clk = s) ∨
    ∃ x y, s.stalled = false ∧ s.currProcess = some x ∧ x.pid ≠ -1 ∧ y.id = x.id ∧ y.pid = x.pid ∧
      y.lState = .stop ∧ s.stallCurrent clk = { s with
        child := s.child.map fun c => { c with stopped := true }
        currProcess := some y
        log := s.log ++ [RRState.lineOf y clk] } := by
  rw [stallCurrent]
  cases hx : s.currProcess with
  | none => exact Or.inl ⟨Or.inr (running_of_none hx).1, rfl⟩
  | some x =>
    dsimp only
    by_cases hst : s.stalled = true
    · exact Or.inl ⟨Or.inl hst, if_neg (by simp [hst])⟩
    · by_cases hp : x.pid = -1
      · exact Or.inl ⟨Or.inr (loaded_of_pid hx hp).1, if_neg fun h => h.2 hp⟩
      · have hst : s.stalled = false := by simpa using hst
        refine Or.inr ⟨x, _, hst, rfl, hp, ?_, ?_, ?_, if_pos ⟨by rw [hst]; rfl, hp⟩⟩ <;> rfl

/-- The processes are loaded from the queue of those that have never run. -/
theorem Loads.moves (h : Loads s) (hf : s.Fresh) (hs : s.Moves clk rem s') : Loads s' := by
  cases hs with
  | @dequeue x q hpc hq =>
    obtain ⟨pd, rfl⟩ := hf x (hq ▸ List.mem_cons_self)
    exact ⟨fun _ => ⟨_, rfl, rfl⟩, fun hl => absurd rfl hl⟩
  | finish hpc hfin hs =>
    obtain ⟨x, l, p, -, -, rfl⟩ := finishLogic_eq_ok hs
    exact ⟨fun hl => absurd hl (by simp [SubPc.phase]), fun _ x hx => absurd hx (by simp)⟩
  | run hpc hs =>
    obtain ⟨x, hx, hp⟩ := h.loading (by rw [hpc]; rfl)
    obtain ⟨y, -, hpid, -, rfl⟩ := runProcess_start hx hp hs
    refine ⟨fun hl => absurd hl (by simp [SubPc.phase]), fun _ z hz => ?_⟩
    rw [← Option.some.inj hz, hpid]
    decide
  | resume hpc =>
    have hpid := h.started (by rw [hpc]; simp [SubPc.phase])
    refine ⟨fun hl => absurd hl (by simp [SubPc.phase]), fun _ => ?_⟩
    rcases s.endStall_line clk with hs | ⟨-, hs⟩ | ⟨x, y, -, hx, hp, -, hyp, -, hs⟩
    · rw [hs]
      exact hpid
    · rw [hs]
      exact hpid
    · rw [hs]
      intro z hz
      rw [← Option.some.inj hz, hyp]
      exact hp
  | permit hpc =>
    obtain ⟨n, hn⟩ := s.permit_eq
    rw [hn]
    exact h.keep rfl (by simp [hpc, SubPc.phase])
  | @update k hpc => exact h.keep rfl (by cases k <;> simp [hpc, SubPc.phase])
  | @total k n r hpc => exact h.keep rfl (by cases k <;> simp [hpc, SubPc.phase])
  | @drained b hpc _ | @last b _ _ hpc _ _ | @fetch b _ _ hpc _ _ | @put b _ hpc =>
    exact h.keep rfl (by cases b <;> simp [hpc, SubPc.phase, behindDrain])
  | drop hpc _ _ _ => exact h.keep rfl Iff.rfl
  | start hpc | turn hpc _ | quit hpc _ | old hpc _ | new hpc _ | running hpc _
  | free hpc _ | idle hpc _ | busy hpc _ | choose hpc _ _ | skip hpc _ | count hpc | clear hpc
  | remaining hpc | closing hpc => exact h.keep rfl (by simp [hpc, SubPc.phase])

/-! ### The record -/

/-- **The log of a sub-scheduler**, and what it shows of the state. -/
structure Serves (s : Sub) : Prop where
  serial : Serial (timeline s.log)
  running : openJob (timeline s.log) = s.running
  /-- A process that is stopped waits for the end of the stall. -/
  stopped : ∀ i, (timeline s.log).getLast? = some (.stop, i) → s.stalled = true
  resumed : ∀ i, (timeline s.log).getLast? = some (.resume, i) → s.stalled = false
  started : s.dispatched = jobs .start (timeline s.log) ++ s.loaded.toList
  finished : jobs .finish (timeline s.log) = s.finished

/-- Nothing is written. -/
theorem Serves.quiet (h : Serves s) (hl : timeline s'.log = timeline s.log)
    (hc : s'.currProcess = s.currProcess) (hst : s'.stalled = s.stalled)
    (hd : s'.dispatched = s.dispatched) (hf : s'.finished = s.finished) : Serves s' := by
  have hrun : s'.running = s.running := by rw [Sub.running, Sub.running, hc]
  have hload : s'.loaded = s.loaded := by rw [Sub.loaded, Sub.loaded, hc]
  constructor
  · rw [hl]
    exact h.serial
  · rw [hl, hrun]
    exact h.running
  · rw [hl, hst]
    exact h.stopped
  · rw [hl, hst]
    exact h.resumed
  · rw [hl, hd, hload]
    exact h.started
  · rw [hl, hf]
    exact h.finished

/-- The last act is not about the running process, if there is none. -/
theorem Serves.getLast_of_idle (h : Serves s) (hrun : s.running = none) {e : Act × ℤ}
    (he : (timeline s.log).getLast? = some e) : e.1 = .finish := by
  have hopen := openJob_of_getLast he
  rw [h.running, hrun] at hopen
  by_contra hc
  rw [if_neg hc] at hopen
  exact absurd hopen (by simp)

/-- The running process is stopped, resumed or finished. -/
theorem Serves.act {a : Act} (h : Serves s) (hx : s.currProcess = some x) (hp : x.pid ≠ -1)
    (ha : a ≠ .start) (hne : ∀ i, (timeline s.log).getLast? ≠ some (a, i)) :
    Serial (timeline s.log ++ [(a, x.id)]) := by
  refine serial_concat.mpr ⟨h.serial, fun hs => absurd hs ha, fun _ => ?_, fun e he hc => ?_⟩
  · rw [h.running, (running_of_pid hx hp).1]
  · exact hne e.2 (he.trans (congrArg (fun b => some (b, e.2)) hc))

/-- A process that runs is not finished. -/
theorem Serves.ne_finish (h : Serves s) (hx : s.currProcess = some x) (hp : x.pid ≠ -1) (i : ℤ) :
    (timeline s.log).getLast? ≠ some (.finish, i) := by
  intro he
  have hopen := openJob_of_getLast he
  rw [h.running, (running_of_pid hx hp).1, if_pos rfl] at hopen
  exact absurd hopen (by simp)

/-- A stall ends or begins, and the running process is resumed or stopped. -/
theorem Serves.turn {a : Act} (h : Serves s) (hx : s.currProcess = some x) (hp : x.pid ≠ -1)
    (hy : s'.currProcess = some y) (hid : y.id = x.id) (hyp : y.pid = x.pid)
    (ha : a = .stop ∧ s.stalled = false ∧ s'.stalled = true ∨
      a = .resume ∧ s.stalled = true ∧ s'.stalled = false)
    (hl : timeline s'.log = timeline s.log ++ [(a, x.id)]) (hd : s'.dispatched = s.dispatched)
    (hf : s'.finished = s.finished) : Serves s' := by
  obtain ⟨hrun, hload⟩ := running_of_pid hx hp
  obtain ⟨hrun', hload'⟩ := running_of_pid hy (hyp ▸ hp)
  have hstart : a ≠ .start := by
    rcases ha with ⟨rfl, -⟩ | ⟨rfl, -⟩ <;> simp
  have hfin : a ≠ .finish := by
    rcases ha with ⟨rfl, -⟩ | ⟨rfl, -⟩ <;> simp
  have hserial : Serial (timeline s.log ++ [(a, x.id)]) := by
    refine h.act hx hp hstart fun i he => ?_
    rcases ha with ⟨rfl, hst, -⟩ | ⟨rfl, hst, -⟩
    · exact absurd ((h.stopped i he).symm.trans hst) (by simp)
    · exact absurd ((h.resumed i he).symm.trans hst) (by simp)
  constructor
  · rw [hl]
    exact hserial
  · rw [hl, openJob_concat, if_neg hfin, hrun', hid]
  · intro i he
    rw [hl, List.getLast?_concat] at he
    rcases ha with ⟨-, -, hst⟩ | ⟨rfl, -⟩
    · exact hst
    · exact absurd he (by simp)
  · intro i he
    rw [hl, List.getLast?_concat] at he
    rcases ha with ⟨rfl, -⟩ | ⟨-, -, hst⟩
    · exact absurd he (by simp)
    · exact hst
  · rw [hl, jobs_concat, if_neg hstart, List.append_nil, hd, h.started, hload, hload']
  · rw [hl, jobs_concat, if_neg hfin, List.append_nil, hf, h.finished]

theorem Serves.moves (h : Serves s) (hload : Loads s) (hf : s.Fresh) (hfree : s.Free)
    (hs : s.Moves clk rem s') : Serves s' := by
  cases hs with
  | @dequeue x q hpc hq =>
    obtain ⟨pd, rfl⟩ := hf x (hq ▸ List.mem_cons_self)
    obtain ⟨hrun, hnone⟩ := running_of_none (hfree hpc)
    refine ⟨h.serial, h.running.trans hrun, h.stopped, h.resumed, ?_, h.finished⟩
    show s.dispatched ++ [pd.id] = jobs .start (timeline s.log) ++ [pd.id]
    rw [h.started, hnone, Option.toList_none, List.append_nil]
  | finish hpc hfin hs =>
    obtain ⟨x, line, v, hx, hline, rfl⟩ := finishLogic_cases hs
    have hp := hload.started (by rw [hpc]; simp [SubPc.phase]) x hx
    have hl : timeline (s.log ++ [line]) = timeline s.log ++ [(.finish, x.id)] := by
      rw [hline]
      exact timeline_concat rfl
    refine ⟨?_, ?_, fun i he => ?_, fun i he => ?_, ?_, ?_⟩
    · rw [hl]
      exact h.act hx hp (by simp) (h.ne_finish hx hp)
    · rw [hl, openJob_concat, if_pos rfl]
      rfl
    · rw [hl, List.getLast?_concat] at he
      exact absurd he (by simp)
    · rw [hl, List.getLast?_concat] at he
      exact absurd he (by simp)
    · show s.dispatched = jobs .start (timeline (s.log ++ [line])) ++ []
      rw [hl, jobs_concat, if_neg (by simp), List.append_nil, List.append_nil, h.started,
        (running_of_pid hx hp).2, Option.toList_none, List.append_nil]
    · rw [hl, jobs_concat, if_pos rfl, h.finished]
  | run hpc hs =>
    obtain ⟨x, hx, hp⟩ := hload.loading (by rw [hpc]; rfl)
    obtain ⟨y, hid, hpid, hst, rfl⟩ := runProcess_start hx hp hs
    obtain ⟨hrun, hloaded⟩ := loaded_of_pid hx hp
    have hact : (RRState.lineOf y clk).lState.act = some .start := congrArg LogState.act hst
    have hl : timeline (s.log ++ [RRState.lineOf y clk]) =
        timeline s.log ++ [(.start, x.id)] := by
      rw [timeline_concat hact, ← hid]
      rfl
    have hyp : y.pid ≠ -1 := by
      rw [hpid]
      decide
    obtain ⟨hrun', hload'⟩ := running_of_pid
      (s := { s with
        shmRT := x.remainingTime
        log := s.log ++ [RRState.lineOf y clk]
        child := some { remainingtime := x.remainingTime, stopped := false, exited := false }
        currProcess := some y
        pc := .clear }) rfl hyp
    refine ⟨?_, ?_, fun i he => ?_, fun i he => ?_, ?_, ?_⟩
    · rw [hl]
      refine serial_concat.mpr ⟨h.serial, fun _ => h.running.trans hrun, fun hc => absurd rfl hc,
        fun e he hc => ?_⟩
      rw [h.getLast_of_idle hrun he] at hc
      exact absurd hc (by simp)
    · rw [hl, openJob_concat, if_neg (by simp), hrun', hid]
    · rw [hl, List.getLast?_concat] at he
      exact absurd he (by simp)
    · rw [hl, List.getLast?_concat] at he
      exact absurd he (by simp)
    · rw [hl, jobs_concat, if_pos rfl, hload', Option.toList_none, List.append_nil]
      show s.dispatched = _
      rw [h.started, hloaded]
      rfl
    · rw [hl, jobs_concat, if_neg (by simp), List.append_nil]
      exact h.finished
  | resume hpc =>
    have hpid := hload.started (by rw [hpc]; simp [SubPc.phase])
    rcases s.endStall_line clk with hs | ⟨hnone, hs⟩ | ⟨x, y, hst, hx, hp, hid, hyp, hl, hs⟩
    · rw [hs]
      exact h.quiet rfl rfl rfl rfl rfl
    · rw [hs]
      refine ⟨h.serial, h.running, fun i he => ?_, fun i _ => rfl, h.started, h.finished⟩
      exact absurd (h.getLast_of_idle hnone he) (by simp)
    · have hact : (RRState.lineOf y clk).lState.act = some .resume := congrArg LogState.act hl
      have hline : timeline (s.log ++ [RRState.lineOf y clk]) =
          timeline s.log ++ [(.resume, x.id)] := by
        rw [timeline_concat hact, ← hid]
        rfl
      rw [hs]
      exact h.turn hx hp rfl hid hyp (Or.inr ⟨rfl, hst, rfl⟩) hline rfl rfl
  | permit hpc =>
    obtain ⟨n, hn⟩ := s.permit_eq
    rw [hn]
    exact h.quiet rfl rfl rfl rfl rfl
  | _ => exact h.quiet rfl rfl rfl rfl rfl

/-- A stall begins, or goes on. -/
theorem Serves.stallSig (h : Serves s) (clk : ℤ) : Serves (s.stallSig clk) := by
  rcases s.stallCurrent_line clk with ⟨hno, hs⟩ | ⟨x, y, hst, hx, hp, hid, hyp, hl, hs⟩
  · obtain ⟨v, r, hs⟩ := stallSig_of hs
    rw [hs]
    refine ⟨h.serial, h.running, fun i _ => rfl, fun i he => ?_, h.started, h.finished⟩
    rcases hno with hst | hnone
    · exact absurd ((h.resumed i he).symm.trans hst) (by simp)
    · exact absurd (h.getLast_of_idle hnone he) (by simp)
  · have hact : (RRState.lineOf y clk).lState.act = some .stop := congrArg LogState.act hl
    have hline : timeline (s.log ++ [RRState.lineOf y clk]) =
        timeline s.log ++ [(.stop, x.id)] := by
      rw [timeline_concat hact, ← hid]
      rfl
    obtain ⟨v, r, hs⟩ := stallSig_of hs
    rw [hs]
    exact h.turn hx hp rfl hid hyp (Or.inl ⟨rfl, hst, rfl⟩) hline rfl rfl

theorem Loads.stallSig (h : Loads s) (clk : ℤ) : Loads (s.stallSig clk) := by
  rcases s.stallCurrent_line clk with ⟨-, hs⟩ | ⟨x, y, -, hx, hp, -, hyp, -, hs⟩
  · obtain ⟨v, r, hs⟩ := stallSig_of hs
    rw [hs]
    exact h.keep rfl Iff.rfl
  · obtain ⟨v, r, hs⟩ := stallSig_of hs
    rw [hs]
    refine ⟨fun hl => ?_, fun _ z hz => ?_⟩
    · obtain ⟨z, hz, hzp⟩ := h.loading hl
      obtain rfl := Option.some.inj (hx.symm.trans hz)
      exact absurd hzp hp
    · rw [← Option.some.inj hz, hyp]
      exact hp

/-! ### The order of the processes -/

/-- **First come, first served**: the processes are dispatched in the order in which they have come,
but for those that are given back. -/
def InOrder (s : Sub) : Prop := (s.dispatched ++ s.readyQueue.map PCB.id).Sublist s.arrived

theorem InOrder.of_same (h : InOrder s) (hs : s.SameQueue s') : InOrder s' := by
  obtain ⟨hr, ha, hd, -⟩ := hs
  rw [InOrder, hr, ha, hd]
  exact h

/-- Processes are received. -/
theorem InOrder.receiveAll (h : InOrder s) (l : List ProcessData)
    (hr : s'.readyQueue = s.readyQueue ++ l.map createPCB)
    (ha : s'.arrived = s.arrived ++ l.map ProcessData.id) (hd : s'.dispatched = s.dispatched) :
    InOrder s' := by
  have hids : (l.map createPCB).map PCB.id = l.map ProcessData.id := by
    rw [List.map_map]
    rfl
  rw [InOrder, hr, ha, hd, List.map_append, hids, ← List.append_assoc]
  exact List.Sublist.append h (List.Sublist.refl _)

theorem InOrder.moves (h : InOrder s) (hs : s.Moves clk rem s') : InOrder s' := by
  rcases hs.queue with ⟨b, pd, rfl⟩ | ⟨x, q, hq, rfl⟩ | ⟨hsame, -⟩
  · exact h.receiveAll [pd] rfl rfl rfl
  · show (s.dispatched ++ [x.id] ++ q.map PCB.id).Sublist s.arrived
    rw [InOrder, hq, List.map_cons] at h
    rw [List.append_assoc]
    exact h
  · exact h.of_same hsame

/-- The last process is given back. -/
theorem InOrder.stealHandler (h : InOrder s) (clk : ℤ) : InOrder (s.stealHandler clk).1 := by
  have hall : InOrder { s with
      readyQueue := s.readyToSteal
      arrived := s.arrived ++ (news s.msgq).map ProcessData.id } :=
    h.receiveAll (news s.msgq) rfl rfl rfl
  rcases s.stealHandler_cases clk with ⟨hnil, v, r, hs⟩ | ⟨x, q, hq, v, r, hs⟩
  · rw [hs]
    exact hall.of_same ⟨hnil.symm, rfl, rfl, rfl⟩
  · rw [hs]
    have hsub : (s.dispatched ++ q.map PCB.id).Sublist
        (s.dispatched ++ s.readyToSteal.map PCB.id) := by
      rw [hq, List.map_append]
      exact List.Sublist.append (List.Sublist.refl _) (List.sublist_append_left _ _)
    exact hsub.trans hall

end Sub

namespace World

open TransitionSystem

variable {P : Params} {w w' : World} {c : Cpu} {e : Event} {s : Sub}

/-! ### The runs -/

/-- What is known of a sub-scheduler. -/
structure Recorded (s : Sub) : Prop where
  loads : s.Loads
  free : s.Free
  serves : s.Serves
  order : s.InOrder

theorem Happens.recorded (h : Happens w c e s) (hf : (w.sub c).Fresh)
    (hr : Recorded (w.sub c)) : Recorded s := by
  have hfree := h.free hr.free
  cases h with
  | reached hs =>
    obtain ⟨q, u, v, rfl⟩ := hs
    exact ⟨hr.loads.keep rfl Iff.rfl, hfree, hr.serves.quiet rfl rfl rfl rfl rfl,
      hr.order.of_same ⟨rfl, rfl, rfl, rfl⟩⟩
  | own hs =>
    exact ⟨hr.loads.moves hf hs, hfree, hr.serves.moves hr.loads hf hr.free hs,
      hr.order.moves hs⟩
  | pass hpc h0 hgate =>
    exact ⟨hr.loads.keep rfl (by simp [hpc, SubPc.phase]), hfree,
      hr.serves.quiet rfl rfl rfl rfl rfl, hr.order.of_same ⟨rfl, rfl, rfl, rfl⟩⟩
  | @write k n t hpc =>
    exact ⟨hr.loads.keep rfl (by cases k <;> simp [hpc, SubPc.phase, Sub.behindWrite]), hfree,
      hr.serves.quiet rfl rfl rfl rfl rfl, hr.order.of_same ⟨rfl, rfl, rfl, rfl⟩⟩
  | ack hpc =>
    exact ⟨hr.loads.keep rfl (by simp [hpc, SubPc.phase]), hfree,
      hr.serves.quiet rfl rfl rfl rfl rfl, hr.order.of_same ⟨rfl, rfl, rfl, rfl⟩⟩
  | steal hsig hpc =>
    refine ⟨?_, hfree, ?_, hr.order.stealHandler _⟩
    · rcases (w.sub c).stealHandler_cases w.clock with ⟨-, v, r, hs⟩ | ⟨x, q, -, v, r, hs⟩ <;>
        rw [hs] <;> exact hr.loads.keep rfl Iff.rfl
    · rcases (w.sub c).stealHandler_cases w.clock with ⟨-, v, r, hs⟩ | ⟨x, q, -, v, r, hs⟩
      · rw [hs]
        exact hr.serves.quiet rfl rfl rfl rfl rfl
      · rw [hs]
        exact hr.serves.quiet (timeline_concat_of_none rfl) rfl rfl rfl rfl
  | stall hsig hpc =>
    refine ⟨hr.loads.stallSig _, hfree, hr.serves.stallSig _, ?_⟩
    obtain ⟨y, v, r, l, ch, hs, -⟩ := (w.sub c).stallSig_eq w.clock
    rw [hs]
    exact hr.order.receiveAll (news (w.sub c).msgq) rfl rfl rfl
  | child hs =>
    obtain ⟨fin, sem, rt, ch, rfl⟩ := Sub.childStep_eq_some hs
    exact ⟨hr.loads.keep rfl Iff.rfl, hfree, hr.serves.quiet rfl rfl rfl rfl rfl,
      hr.order.of_same ⟨rfl, rfl, rfl, rfl⟩⟩

theorem reachable_recorded (h : (system P).Reachable w) : ∀ c, Recorded (w.sub c) := by
  refine h.invariant_of (J := fun w => ∀ c, (w.sub c).Fresh)
    (P := fun w => ∀ c, Recorded (w.sub c)) (fun _ => reachable_fresh) ?_ ?_
  · rintro _ ⟨l, -, rfl⟩ c
    refine ⟨⟨fun hl => absurd hl (by simp [start, Sub.init, SubPc.phase]),
      fun _ x hx => absurd hx (by simp [start, Sub.init])⟩, fun hc => ?_, ?_, List.Sublist.refl _⟩
    · exact absurd hc (by simp [start, Sub.init])
    · exact ⟨serial_nil, rfl, fun i hi => absurd hi (by simp [start, Sub.init, timeline]),
        fun i hi => absurd hi (by simp [start, Sub.init, timeline]), rfl, rfl⟩
  · rintro w w' hf hr ⟨e, hst⟩ c
    exact ((next_cases hst).happens c).recorded (hf c) (hr c)

/-- **The log of each CPU is the record of one process after the other**, in every state of every
run. The process that has not been finished according to the log is the running one, if it has been
started; those that are finished there are finished; and the processes are started and finished in
the order in which they have come. -/
theorem reachable_serial (h : (system P).Reachable w) (c : Cpu) :
    Serial (timeline (w.sub c).log) ∧ Uninterrupted (timeline (w.sub c).log) ∧
      openJob (timeline (w.sub c).log) = (w.sub c).running ∧
      jobs .finish (timeline (w.sub c).log) = (w.sub c).finished ∧
      jobs .start (timeline (w.sub c).log) = (w.sub c).finished ++ (w.sub c).running.toList ∧
      (jobs .start (timeline (w.sub c).log)).Sublist (w.sub c).arrived := by
  obtain ⟨-, -, hs, ho⟩ := reachable_recorded h c
  refine ⟨hs.serial, hs.serial.uninterrupted, hs.running, hs.finished, ?_, ?_⟩
  · rw [hs.serial.jobs_start, hs.running, hs.finished]
  · refine List.Sublist.trans ?_ ho
    rw [hs.started, List.append_assoc]
    exact List.sublist_append_left _ _

/-- The first process is stopped for the stall, and resumed behind it. -/
theorem reachable_serial_uneven : ∃ w, playAll (next { N := 2, M := 1 }) (start uneven) wholeRun =
      some w ∧
    timeline (w.sub .one).log = [(.start, 7), (.stop, 7), (.resume, 7), (.finish, 7)] ∧
    Serial (timeline (w.sub .one).log) ∧ Uninterrupted (timeline (w.sub .one).log) ∧
      openJob (timeline (w.sub .one).log) = (w.sub .one).running ∧
      jobs .finish (timeline (w.sub .one).log) = (w.sub .one).finished ∧
      jobs .start (timeline (w.sub .one).log) =
        (w.sub .one).finished ++ (w.sub .one).running.toList ∧
      (jobs .start (timeline (w.sub .one).log)).Sublist (w.sub .one).arrived := by
  have hrun : (playAll (next { N := 2, M := 1 }) (start uneven) wholeRun).map
      (fun w => timeline (w.sub .one).log) =
      some [(.start, 7), (.stop, 7), (.resume, 7), (.finish, 7)] := by
    decide +kernel
  obtain ⟨w, hw, hlog⟩ := Option.map_eq_some_iff.mp hrun
  have hstart : (system { N := 2, M := 1 }).Reachable (start uneven) :=
    .init ⟨_, workload_uneven, rfl⟩
  exact ⟨w, hw, hlog, reachable_serial (hstart.playAll next_step hw) .one⟩

/-- The processes that have been started. -/
def started (w : World) : List ℤ :=
  jobs .start (timeline (w.sub .one).log) ++ jobs .start (timeline (w.sub .two).log)

/-- What has been started is finished or running. -/
theorem Recorded.count_started (h : Recorded s) (i : ℤ) :
    s.finished.count i ≤ (jobs .start (timeline s.log)).count i ∧
      (jobs .start (timeline s.log)).count i ≤ s.tally i := by
  have hrun : s.running.toList.count i ≤ (s.currProcess.toList.map PCB.id).count i := by
    cases hx : s.currProcess with
    | none =>
      rw [(Sub.running_of_none hx).1]
      rfl
    | some x =>
      by_cases hp : x.pid = -1
      · rw [(Sub.loaded_of_pid hx hp).1]
        exact Nat.zero_le _
      · rw [(Sub.running_of_pid hx hp).1]
        exact le_rfl
  rw [h.serves.serial.jobs_start, h.serves.running, h.serves.finished, List.count_append, Sub.tally,
    Sub.held, List.count_append]
  constructor <;> omega

/-- **In an orderly run no process is started twice**, on whichever CPU, and only processes that
were routed are started. When the main scheduler has left its loop, each one that was routed has
been started once, and finished once. -/
theorem orderly_started (h : (systemIf P Orderly).Reachable w) :
    w.started.Nodup ∧ w.started ⊆ w.routed ∧ (w.main.pc.out = true → w.started.Perm w.routed ∧
      (jobs .finish (timeline (w.sub .one).log) ++
        jobs .finish (timeline (w.sub .two).log)).Perm w.routed) := by
  obtain ⟨l, hl, hw⟩ := reachable_sorted h
  have hrec := reachable_recorded (reachable_of_if h)
  have hcount : ∀ i, w.started.count i ≤ w.routed.count i := by
    intro i
    have hone := ((hrec .one).count_started i).2
    have htwo := ((hrec .two).count_started i).2
    have htally : w.tallies i = (w.sub .one).tally i + (w.sub .two).tally i := rfl
    have hall := conserved_iff.mp hw.conserved i
    rw [started, List.count_append]
    omega
  have hnodup := hw.flow.nodup hl
  refine ⟨List.nodup_iff_count_le_one.mpr fun i => ?_, fun i hi => ?_, fun hout => ?_⟩
  · exact (hcount i).trans (List.nodup_iff_count_le_one.mp hnodup i)
  · exact List.count_pos_iff.mp ((List.count_pos_iff.mpr hi).trans_le (hcount i))
  · have hgone := (reachable_acked (reachable_of_if h)).gone
    have hfin := hw.ended.finished hw.conserved fun c => SubPc.left_of_gone (hgone hout c)
    refine ⟨List.perm_iff_count.mpr fun i => le_antisymm (hcount i) ?_, ?_⟩
    · have hone := ((hrec .one).count_started i).1
      have htwo := ((hrec .two).count_started i).1
      rw [hfin.count_eq, finished, started, List.count_append, List.count_append]
      omega
    · rw [(hrec .one).serves.finished, (hrec .two).serves.finished]
      exact hfin.symm

/-- The process that is stolen is started on the second CPU, behind the one of that CPU. -/
theorem orderly_started_uneven : ∃ w,
    playAll (nextOrderly { N := 2, M := 1 }) (start uneven) wholeRun = some w ∧
    w.main.pc.out = true ∧ w.started = [7, 8, 9] ∧
    w.started.Nodup ∧ w.started ⊆ w.routed ∧ (w.main.pc.out = true → w.started.Perm w.routed ∧
      (jobs .finish (timeline (w.sub .one).log) ++
        jobs .finish (timeline (w.sub .two).log)).Perm w.routed) := by
  have hrun : (playAll (nextOrderly { N := 2, M := 1 }) (start uneven) wholeRun).map
      (fun w => (w.main.pc.out, w.started)) = some (true, [7, 8, 9]) := by
    decide +kernel
  obtain ⟨w, hw, h⟩ := Option.map_eq_some_iff.mp hrun
  simp only [Prod.mk.injEq] at h
  have hstart : (systemIf { N := 2, M := 1 } Orderly).Reachable (start uneven) :=
    .init ⟨_, workload_uneven, rfl⟩
  exact ⟨w, hw, h.1, h.2, orderly_started (hstart.playAll nextOrderly_step hw)⟩

end World

end Dual

end CpuScheduler
