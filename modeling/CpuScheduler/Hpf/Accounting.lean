import CpuScheduler.Hpf.Custody
import CpuScheduler.RR.Accounting

/-!
# Where the time goes under HPF

In a paced run (`CpuScheduler.Hpf.World.Paced`) all time up to the edge is accounted for
(`CpuScheduler.Hpf.State.edge`). The edge is the next tick in which the running process can
execute: the tick of the turn while the turn goes on, and the tick after it once the permit has
been used. Up to the edge a process that is running has been waiting or executing since its
arrival, and a process that is not has been so up to its last stop, as under round robin
(`CpuScheduler.PCB.Charged`, `CpuScheduler.PCB.Settled`).

| | the next process starts |
|---|---|
| after a finish at tick `t` | at `t + 1`, behind the gate |
| after a preemption at tick `t` | at `t + 1`, behind `wait_N_secs` |

In both cases nothing executes at `t` itself.
-/

namespace CpuScheduler

namespace Hpf

variable {s s' : State} {clk pid n rt E t : ℤ} {x y : PCB} {l : List (ℤ × ℤ)}

namespace State

/-! ### The edge -/

/-- **The next tick in which the running process can execute.** -/
def edge (s : State) : ℤ :=
  match s.pc with
  | .top | .waitStart | .wait _ | .exited => s.lastTick + 1 - s.sem
  | .permit => if s.currProcess.isSome then s.lastTick else s.lastTick + 1
  | _ => s.lastTick

/-- The number of ticks that a child has executed. -/
def ticksOf (l : List (ℤ × ℤ)) (p : ℤ) : ℤ := (l.countP fun e => e.1 = p : ℕ)

theorem ticksOf_append_self (l : List (ℤ × ℤ)) (p t : ℤ) :
    ticksOf (l ++ [(p, t)]) p = ticksOf l p + 1 := by
  simp [ticksOf]

theorem ticksOf_append_of_ne (l : List (ℤ × ℤ)) {p q : ℤ} (hq : q ≠ p) (t : ℤ) :
    ticksOf (l ++ [(p, t)]) q = ticksOf l q := by
  simp [ticksOf, hq.symm]

theorem ticksOf_eq_zero {p : ℤ} (h : ∀ e ∈ l, e.1 ≠ p) : ticksOf l p = 0 := by
  rw [ticksOf, List.countP_eq_zero.mpr fun e he => by simpa using h e he]
  rfl

/-! ### What `HPF_algo` does with the accounts -/

/-- **A process is dispatched** at the edge. -/
theorem charged_dispatched (h : x.Settled n) (hE : 0 ≤ E) (p : ℤ) :
    (dispatched x E p).Charged n x.remainingTime E := by
  unfold dispatched
  by_cases hpid : x.pid = -1
  · obtain ⟨hs, rfl⟩ := h.fresh hpid
    simp only [if_pos hs, if_pos hpid]
    refine ⟨h.total, ?_, ?_⟩
    · show x.arrival + (E - x.arrival) + 0 = E
      omega
    · show E ≠ -1
      omega
  · obtain ⟨hs, hstop, hsince⟩ := h.halted hpid
    simp only [if_neg hs, if_neg hpid]
    refine ⟨h.total, ?_, hs⟩
    show x.arrival + (if x.lastStopped ≥ 0 then x.waitingTime + (E - x.lastStopped)
      else x.waitingTime) + n = E
    rw [if_pos hstop]
    omega

/-- **A process is stopped** at the edge. -/
theorem settled_stopped (h : x.Charged n rt E) (hE : 0 ≤ E) (hpid : x.pid ≠ -1)
    (hlast : x.lastStopped = E) : (stopped x rt).Settled n :=
  ⟨h.total, fun hp => absurd hp hpid, fun _ => ⟨h.started, by
    show 0 ≤ x.lastStopped
    omega, by
    show x.arrival + x.waitingTime + n = x.lastStopped
    rw [hlast]
    exact h.since⟩⟩

/-! ### The books -/

/-- **A process that has finished**: nothing is left, it has executed its runtime, and it was
waiting for the rest of the time. -/
structure Done (n : ℤ) (x : PCB) : Prop where
  remaining : x.remainingTime = 0
  executed : n = x.runtime
  turnaround : x.finishTime - x.arrival = x.waitingTime + x.runtime

/-- **The segments of execution before the edge** `E`. -/
structure Spaced (E : ℤ) (s : State) : Prop where
  segments : s.executed.Pairwise fun a b => a.2 < b.2 ∧ (a.1 ≠ b.1 → a.2 + 2 ≤ b.2)
  past : ∀ e ∈ s.executed, e.2 < E
  /-- Somebody else can execute after a tick in which nobody does. -/
  others : ∀ e ∈ s.executed, (∀ x, s.currProcess = some x → x.pid ≠ e.1) →
    e.2 + 2 ≤ max s.contextSwitchUntil E

/-- **The totals before the edge** `E`. -/
structure Totals (E : ℤ) (s : State) : Prop where
  busy : ∀ d, s.received.head? = some d → d.arrival + s.executed.length ≤ E
  empty : s.received = [] → s.executed = []
  unset : s.received = [] → s.perf.firstArrival = -1
  first : ∀ d, s.received.head? = some d → d.arrival ≠ -1 → s.perf.firstArrival = d.arrival
  total : s.perf.totalRuntime =
    (s.executed.countP fun e => e.1 ∈ s.finished.map PCB.pid : ℕ)
  finish : s.finished ≠ [] → ∀ d, s.received.head? = some d →
    d.arrival + s.perf.totalRuntime ≤ s.perf.finishTime

theorem Totals.goto {E' : ℤ} (h : Totals E s) (hex : s'.executed = s.executed)
    (hrec : s'.received = s.received) (hperf : s'.perf = s.perf)
    (hfin : s'.finished = s.finished) (hE : E ≤ E') : Totals E' s' where
  busy d hd := by
    rw [hex]
    exact (h.busy d (hrec ▸ hd)).trans hE
  empty hnil := by
    rw [hex]
    exact h.empty (hrec ▸ hnil)
  unset hnil := by
    rw [hperf]
    exact h.unset (hrec ▸ hnil)
  first d hd hne := by
    rw [hperf]
    exact h.first d (hrec ▸ hd) hne
  total := by rw [hperf, hex, hfin, h.total]
  finish hne d hd := by
    rw [hperf]
    exact h.finish (hfin ▸ hne) d (hrec ▸ hd)

/-- **At the edge all accounts agree.** -/
structure Books (E : ℤ) (s : State) : Prop where
  ready : ∀ y ∈ s.readyQueue, y.Settled (ticksOf s.executed y.pid)
  running : ∀ x, s.currProcess = some x → x.Charged (ticksOf s.executed x.pid) s.shmRT E
  stopping : s.pc = .stop → ∀ x, s.currProcess = some x → x.lastStopped = E
  done : ∀ x ∈ s.finished, Done (ticksOf s.executed x.pid) x
  spaced : Spaced E s
  totals : Totals E s

theorem Books.congr {E' : ℤ} (h : Books E s) (hE : E = E') : Books E' s := hE ▸ h

/-- A move that the accounts are not about. -/
theorem Books.goto {E' : ℤ} (h : Books E s) (hcur : s'.currProcess = s.currProcess)
    (hq : s'.readyQueue = s.readyQueue) (hex : s'.executed = s.executed) (hrt : s'.shmRT = s.shmRT)
    (hrec : s'.received = s.received) (hperf : s'.perf = s.perf)
    (hfin : s'.finished = s.finished) (hpc : s'.pc ≠ .stop) (hE : E ≤ E')
    (hrun : s.currProcess ≠ none → E' = E)
    (hmax : max s.contextSwitchUntil E ≤ max s'.contextSwitchUntil E') : Books E' s' where
  ready y hy := by
    rw [hex]
    exact h.ready y (hq ▸ hy)
  running x hx := by
    rw [hcur] at hx
    rw [hex, hrt, hrun (by rw [hx]; exact Option.some_ne_none x)]
    exact h.running x hx
  stopping hc := absurd hc hpc
  done x hx := by
    rw [hex]
    exact h.done x (hfin ▸ hx)
  spaced := by
    refine ⟨by rw [hex]; exact h.spaced.segments, fun e he => ?_, fun e he hne => ?_⟩
    · exact (h.spaced.past e (hex ▸ he)).trans_le hE
    · exact (h.spaced.others e (hex ▸ he) (hcur ▸ hne)).trans hmax
  totals := h.totals.goto hex hrec hperf hfin hE

theorem firstArrivalOf_totals (perf : PerfVars) (d : ProcessData) :
    (RRState.firstArrivalOf perf d).totalRuntime = perf.totalRuntime ∧
      (RRState.firstArrivalOf perf d).finishTime = perf.finishTime := by
  rw [RRState.firstArrivalOf]
  split_ifs
  · exact ⟨rfl, rfl⟩
  · exact ⟨rfl, rfl⟩

/-- The first process that is received sets the first arrival. -/
theorem Totals.arrive (h : Totals E s) (hplaced : s.Placed) {d : ProcessData}
    (hd : d.arrival ≤ E) {rest : List ProcessData} {q : List PCB} : Totals E { s with
      msgq := rest
      readyQueue := q
      perf := RRState.firstArrivalOf s.perf d
      received := s.received ++ [d] } := by
  obtain ⟨htotal, hfinish⟩ := firstArrivalOf_totals s.perf d
  have hne : ¬(s.received ++ [d] = []) :=
    List.append_ne_nil_of_right_ne_nil _ (List.cons_ne_nil d [])
  by_cases hnil : s.received = []
  · -- nothing has been executed
    have hex := h.empty hnil
    have hfin : s.finished = [] := by
      have hlen := hplaced.length_eq
      rw [hnil, List.map_nil, List.length_nil, List.length_map, pcbs, List.length_append] at hlen
      exact List.length_eq_zero_iff.mp (by omega)
    have hhead : ∀ d', (s.received ++ [d]).head? = some d' → d' = d := fun d' hd' => by
      rw [hnil] at hd'
      exact (Option.some.inj hd').symm
    refine ⟨fun d' hd' => ?_, fun hc => absurd hc hne, fun hc => absurd hc hne, fun d' hd' _ => ?_,
      htotal.trans h.total, fun hc => absurd hfin hc⟩
    · rw [hhead d' hd', hex]
      show d.arrival + 0 ≤ E
      omega
    · rw [hhead d' hd', RRState.firstArrivalOf, if_pos (h.unset hnil)]
  · have hhead : (s.received ++ [d]).head? = s.received.head? :=
      List.head?_append_of_ne_nil _ hnil
    refine ⟨fun d' hd' => h.busy d' (hhead ▸ hd'), fun hc => absurd hc hne,
      fun hc => absurd hc hne, fun d' hd' hset => ?_, htotal.trans h.total,
      fun hc d' hd' => ?_⟩
    · have hfirst := h.first d' (hhead ▸ hd') hset
      show (RRState.firstArrivalOf s.perf d).firstArrival = d'.arrival
      rw [RRState.firstArrivalOf, if_neg (by rw [hfirst]; exact hset), hfirst]
    · show d'.arrival + (RRState.firstArrivalOf s.perf d).totalRuntime ≤
        (RRState.firstArrivalOf s.perf d).finishTime
      rw [htotal, hfinish]
      exact h.finish hc d' (hhead ▸ hd')

/-- **A process is received**, which has arrived before the edge. -/
theorem Books.arrive (h : Books E s) {d : ProcessData} (hf : Forked s) (hplaced : s.Placed)
    (hpc : s.pc = .receive) (hd : d.arrival ≤ E) (rest : List ProcessData) : Books E { s with
      msgq := rest
      readyQueue := Queue.enqueuePriority s.readyQueue (createPCB d)
      perf := RRState.firstArrivalOf s.perf d
      received := s.received ++ [d] } where
  ready y hy := by
    rcases Queue.mem_enqueuePriority.mp hy with rfl | hy
    · have hzero : ticksOf s.executed (createPCB d).pid = 0 := ticksOf_eq_zero fun e he => by
        have := (hf.known e he).1
        show e.1 ≠ -1
        omega
      rw [hzero]
      exact ⟨zero_add _, fun _ => ⟨rfl, rfl⟩, fun hp => absurd rfl hp⟩
    · exact h.ready y hy
  running := h.running
  stopping hc := nomatch hpc.symm.trans hc
  done := h.done
  spaced := ⟨h.spaced.segments, h.spaced.past, h.spaced.others⟩
  totals := h.totals.arrive hplaced hd

theorem countP_mem_concat {ps : List ℤ} {p : ℤ} (hp : p ∉ ps) :
    (l.countP fun e => e.1 ∈ ps ++ [p]) =
      (l.countP fun e => e.1 ∈ ps) + l.countP fun e => e.1 = p := by
  induction l with
  | nil => rfl
  | cons e l ih =>
    rw [List.countP_cons, List.countP_cons, List.countP_cons, ih]
    by_cases he : e.1 = p
    · simp [he, hp]
      omega
    · simp [he]
      omega

/-- **A process is let go of** at the edge, with nothing left. -/
theorem Books.reap (h : Books E s) (hf : Forked s) (hx : s.currProcess = some x)
    (hdone : s.shmRT = 0) {lg : List LogLine} :
    Books E { s with
      currProcess := none
      contextSwitchUntil := E + 1
      log := lg
      perf := RRState.perfOf s.perf (reaped x E s.shmRT) E
      child := Function.update s.child x.pid none
      finished := s.finished ++ [reaped x E s.shmRT]
      pc := .gate } where
  ready := h.ready
  running y hy := nomatch (show none = some y from hy)
  stopping hc := nomatch (show Pc.gate = Pc.stop from hc)
  done y hy := by
    rcases List.mem_append.mp hy with hy | hy
    · exact h.done y hy
    · obtain ⟨htotal, hsince, -⟩ := h.running x hx
      rw [List.mem_singleton.mp hy]
      rw [hdone, add_zero] at htotal
      refine ⟨hdone, htotal, ?_⟩
      show E - x.arrival = x.waitingTime + x.runtime
      omega
  spaced := by
    refine ⟨h.spaced.segments, h.spaced.past, fun e he _ => ?_⟩
    have := h.spaced.past e he
    show e.2 + 2 ≤ max (E + 1) E
    omega
  totals := by
    obtain ⟨htotal, -, -⟩ := h.running x hx
    rw [hdone, add_zero] at htotal
    have ht := h.totals
    have hnew : x.pid ∉ s.finished.map PCB.pid := fun hmem => by
      obtain ⟨y, hy, hp⟩ := List.mem_map.mp hmem
      exact hf.ne_curr hx (List.mem_append_right _ hy) hp
    -- what the process has executed is added
    have hpids : (s.finished ++ [reaped x E s.shmRT]).map PCB.pid =
        s.finished.map PCB.pid ++ [x.pid] := List.map_append
    have hsum : ((s.executed.countP fun e => e.1 ∈ (s.finished ++ [reaped x E s.shmRT]).map
        PCB.pid : ℕ) : ℤ) = s.perf.totalRuntime + x.runtime := by
      rw [hpids, countP_mem_concat hnew, Nat.cast_add, ← ht.total, ← htotal]
      rfl
    have hle : (s.executed.countP fun e => e.1 ∈ (s.finished ++ [reaped x E s.shmRT]).map
        PCB.pid) ≤ s.executed.length := List.countP_le_length
    refine ⟨ht.busy, ht.empty, fun hc => ?_, ht.first, hsum.symm, fun _ d hd => ?_⟩
    · exact ht.unset hc
    · have hbusy := ht.busy d hd
      show d.arrival + (s.perf.totalRuntime + x.runtime) ≤ E
      omega

/-- **The running process is preempted** at the edge. -/
theorem Books.preempt (h : Books E s) (hx : s.currProcess = some x) : Books E { s with
    currProcess := some { x with lastStopped := E }, pc := .stop } where
  ready := h.ready
  running y hy := by
    obtain rfl := Option.some.inj hy
    obtain ⟨htotal, hsince, hstart⟩ := h.running x hx
    exact ⟨htotal, hsince, hstart⟩
  stopping _ y hy := by
    obtain rfl := Option.some.inj hy
    rfl
  done := h.done
  spaced := by
    refine ⟨h.spaced.segments, h.spaced.past, fun e he hne => h.spaced.others e he fun y hy => ?_⟩
    obtain rfl := Option.some.inj (hx.symm.trans hy)
    exact fun he => hne { x with lastStopped := E } rfl he
  totals := h.totals.goto rfl rfl rfl rfl le_rfl

/-- It is put back into the queue, and the next tick is the first one in which somebody else can
execute. -/
theorem Books.stop (h : Books E s) (hf : Forked s) (hpc : s.pc = .stop)
    (hx : s.currProcess = some x) (hE : 0 ≤ E) {lg : List LogLine} : Books (E + 1) { s with
      child := Function.update s.child x.pid
        ((s.child x.pid).map fun c => { c with stopped := true })
      log := lg
      readyQueue := Queue.enqueuePriority s.readyQueue (stopped x s.shmRT)
      currProcess := none
      pc := .waitStart } where
  ready y hy := by
    rcases Queue.mem_enqueuePriority.mp hy with rfl | hy
    · exact settled_stopped (h.running x hx) hE (hf.started x hx) (h.stopping hpc x hx)
    · exact h.ready y hy
  running y hy := nomatch (show none = some y from hy)
  stopping hc := nomatch (show Pc.waitStart = Pc.stop from hc)
  done := h.done
  spaced := by
    refine ⟨h.spaced.segments, fun e he => ?_, fun e he _ => ?_⟩
    · have := h.spaced.past e he
      omega
    · have := h.spaced.past e he
      show e.2 + 2 ≤ max s.contextSwitchUntil (E + 1)
      omega
  totals := h.totals.goto rfl rfl rfl rfl (by omega)

/-- **A process is dispatched** at the edge, when nobody is running. -/
theorem Books.dispatch (h : Books E s) (hf : Forked s) (hcurr : s.currProcess = none)
    {q : List PCB} (hq : s.readyQueue = x :: q) (hE : 0 ≤ E) {lg : List LogLine} :
    Books E { s with
      readyQueue := q
      shmRT := x.remainingTime
      log := lg
      forks := if x.pid = -1 then s.forks + 1 else s.forks
      child := Function.update s.child (dispatched x E (s.forks + 1)).pid
        (childOf x (s.child x.pid))
      currProcess := some (dispatched x E (s.forks + 1))
      pc := .permit } where
  ready y hy := h.ready y (by rw [hq]; exact List.mem_cons_of_mem x hy)
  running y hy := by
    obtain rfl := Option.some.inj hy
    have hx := h.ready x (by rw [hq]; exact List.mem_cons_self)
    have hticks : ticksOf s.executed (dispatched x E (s.forks + 1)).pid =
        ticksOf s.executed x.pid := by
      rw [dispatched_pid]
      split_ifs with hp
      · -- a new pid has executed nothing
        rw [(hx.fresh hp).2]
        refine ticksOf_eq_zero fun e he => ?_
        have := (hf.known e he).2
        omega
      · rfl
    show PCB.Charged (ticksOf s.executed (dispatched x E (s.forks + 1)).pid) x.remainingTime E _
    rw [hticks]
    exact charged_dispatched hx hE (s.forks + 1)
  stopping hc := nomatch (show Pc.permit = Pc.stop from hc)
  done := h.done
  spaced := by
    refine ⟨h.spaced.segments, h.spaced.past, fun e he _ => h.spaced.others e he fun y hy => ?_⟩
    exact nomatch hcurr.symm.trans hy
  totals := h.totals.goto rfl rfl rfl rfl le_rfl

/-- **The running process executes** for one tick, at the edge. -/
theorem Books.tick (h : Books E s) (hf : Forked s) (hplaced : s.Placed) (hpc : s.pc = .top)
    (hx : s.currProcess = some x) (hcsu : s.contextSwitchUntil = -1) (hE : 0 ≤ E)
    (n : ℕ) (ch : ℤ → Option Dual.Child) : Books (E + 1) { s with
      sem := n
      shmRT := s.shmRT - 1
      child := ch
      executed := s.executed ++ [(x.pid, E)] } where
  ready y hy := by
    have hne := hf.ne_curr hx (List.mem_append_left _ hy)
    rw [ticksOf_append_of_ne _ hne]
    exact h.ready y hy
  running y hy := by
    obtain rfl := Option.some.inj (hx.symm.trans hy)
    obtain ⟨htotal, hsince, hstart⟩ := h.running x hx
    rw [ticksOf_append_self]
    refine ⟨?_, by omega, hstart⟩
    show ticksOf s.executed x.pid + 1 + (s.shmRT - 1) = x.runtime
    omega
  stopping hc := nomatch hpc.symm.trans hc
  done y hy := by
    have hne := hf.ne_curr hx (List.mem_append_right _ hy)
    rw [ticksOf_append_of_ne _ hne]
    exact h.done y hy
  spaced := by
    refine ⟨List.pairwise_append.mpr ⟨h.spaced.segments, List.pairwise_singleton _ _,
      fun a ha b hb => ?_⟩, fun e he => ?_, fun e he hne => ?_⟩
    · rw [List.mem_singleton.mp hb]
      refine ⟨h.spaced.past a ha, fun hne => ?_⟩
      have hlate := h.spaced.others a ha fun y hy => by
        obtain rfl := Option.some.inj (hx.symm.trans hy)
        exact fun he => hne he.symm
      rw [hcsu] at hlate
      show a.2 + 2 ≤ E
      omega
    · rcases List.mem_append.mp he with he | he
      · have := h.spaced.past e he
        omega
      · rw [List.mem_singleton.mp he]
        exact Int.lt_succ E
    · rcases List.mem_append.mp he with he | he
      · have := h.spaced.others e he hne
        show e.2 + 2 ≤ max s.contextSwitchUntil (E + 1)
        omega
      · rw [List.mem_singleton.mp he] at hne
        exact absurd rfl (hne x hx)
  totals := by
    have ht := h.totals
    have hlen : ((s.executed ++ [(x.pid, E)]).length : ℤ) = s.executed.length + 1 := by
      rw [List.length_append, List.length_singleton]
      rfl
    refine ⟨fun d hd => ?_, fun hnil => ?_, ht.unset, ht.first, ?_, ht.finish⟩
    · have := ht.busy d hd
      show d.arrival + ((s.executed ++ [(x.pid, E)]).length : ℤ) ≤ E + 1
      omega
    · -- a process that is running has been received
      have hlen := hplaced.length_eq
      rw [show s.received = [] from hnil, List.map_nil, List.length_nil, List.length_map, pcbs,
        List.length_append, List.length_append, hx] at hlen
      exact absurd hlen (by rw [Option.toList_some, List.length_singleton]; omega)
    · have hnone : [(x.pid, E)].countP (fun e => e.1 ∈ s.finished.map PCB.pid) = 0 := by
        refine List.countP_eq_zero.mpr fun e he => ?_
        rw [List.mem_singleton.mp he, decide_eq_true_eq]
        intro hmem
        obtain ⟨y, hy, hp⟩ := List.mem_map.mp hmem
        exact hf.ne_curr hx (List.mem_append_right _ hy) hp
      show s.perf.totalRuntime =
        ((s.executed ++ [(x.pid, E)]).countP fun e => e.1 ∈ s.finished.map PCB.pid : ℕ)
      rw [List.countP_append, hnone, Nat.add_zero, ht.total]

/-! ### The edge moves with the turns -/

/-- In a turn the edge is its tick. -/
theorem edge_inTurn (hin : s.pc.inTurn = true) (hpc : s.pc ≠ .waitStart) :
    s.edge = s.lastTick := by
  cases h : s.pc
  case finish | reap | gate | receive | algo | stop => rw [edge, h]
  case waitStart => exact absurd h hpc
  case top | wait | permit | exited =>
    rw [h] at hin
    exact nomatch hin

/-- At the end of a turn it is the tick, or the next one if nobody is running. -/
theorem edge_permit (hpc : s.pc = .permit) :
    s.lastTick ≤ s.edge ∧ (s.currProcess ≠ none → s.edge = s.lastTick) := by
  rw [edge, hpc]
  dsimp only
  split_ifs with hsome
  · exact ⟨le_rfl, fun _ => rfl⟩
  · refine ⟨by omega, fun hne => ?_⟩
    exact absurd (Option.isSome_iff_ne_none.mpr hne) hsome

/-- **The scheduler keeps the accounts.** -/
theorem Books.moves (h : Books s.edge s) (ht : Timed clk s) (ha : Attended clk s) (hf : Forked s)
    (hr : Ranked s) (hplaced : s.Placed)
    (harr : ∀ d ∈ s.msgq, d.mtype = 1 → d.arrival ≤ clk) (hm : Moves clk s s') :
    Books s'.edge s' := by
  -- a move inside a turn
  have hin : ∀ s₁ : State, s.pc.inTurn = true → s.pc ≠ .waitStart → s₁.pc.inTurn = true →
      s₁.pc ≠ .waitStart → s₁.lastTick = s.lastTick → s₁.edge = s.edge := by
    intro s₁ h1 h2 h3 h4 hl
    rw [edge_inTurn h1 h2, edge_inTurn h3 h4, hl]
  have hbehind : ∀ s₁ : State, s.pc.inTurn = true → s.pc ≠ .waitStart →
      s₁.pc = behindReceive s.now → s₁.lastTick = s.lastTick → s₁.currProcess = s.currProcess →
      s.edge ≤ s₁.edge ∧ (s.currProcess ≠ none → s₁.edge = s.edge) ∧ s₁.pc ≠ .stop := by
    intro s₁ h1 h2 hpc hl hcur
    rw [edge_inTurn h1 h2, ← hl, ← hcur]
    rcases behindReceive_cases s.now with ⟨-, hb⟩ | ⟨-, hb⟩
    · rw [edge_inTurn (s := s₁) (by rw [hpc, hb]; rfl) (by rw [hpc, hb]; exact nofun)]
      exact ⟨le_rfl, fun _ => rfl, by rw [hpc, hb]; exact nofun⟩
    · obtain ⟨hle, heq⟩ := edge_permit (hpc.trans hb)
      exact ⟨hle, heq, by rw [hpc, hb]; exact nofun⟩
  have hedge : s.pc.inTurn = true → s.pc ≠ .waitStart → s.edge = clk := by
    intro h1 h2
    obtain ⟨hclk, hl⟩ := ht.turn h1
    rw [edge_inTurn h1 h2, hl, hclk]
  have h0 := ht.nonneg
  cases hm with
  | spin hpc hgo hold => exact h
  | leave hpc hgo =>
    have he : State.edge { s with pc := .exited } = s.edge := by rw [edge, edge, hpc]
    rw [he]
    exact h.goto rfl rfl rfl rfl rfl rfl rfl nofun le_rfl (fun _ => rfl) le_rfl
  | begin hpc hgo hnew =>
    -- the turn is for the tick behind the one of the last turn
    have hsem : s.sem = 0 := ha.sem.resolve_right fun hs => hnew hs.2.2.1
    have hE : s.edge = s.lastTick + 1 := by
      rw [edge, hpc, hsem]
      exact sub_zero _
    have he : State.edge { s with lastTick := clk, now := clk, pc := .finish } = clk := rfl
    have hle : s.edge ≤ clk ∧ (s.currProcess ≠ none → clk = s.edge) := by
      have hn := ht.tick
      rcases ht.top hpc with ⟨hl, hnone⟩ | ⟨hl, hclk⟩
      · exact ⟨by omega, fun hne => absurd hnone hne⟩
      · exact ⟨by omega, fun _ => by omega⟩
    rw [he]
    exact h.goto rfl rfl rfl rfl rfl rfl rfl nofun hle.1 hle.2 (max_le_max le_rfl hle.1)
  | running hpc hno =>
    have he := hin { s with pc := .gate } (by rw [hpc]; rfl) (by rw [hpc]; exact nofun) rfl nofun
      rfl
    rw [he]
    exact h.goto rfl rfl rfl rfl rfl rfl rfl nofun le_rfl (fun _ => rfl) le_rfl
  | signalled hpc hx hsig =>
    have he := hin { s with processFinishedSignal := false, pc := .reap } (by rw [hpc]; rfl)
      (by rw [hpc]; exact nofun) rfl nofun rfl
    rw [he]
    exact h.goto rfl rfl rfl rfl rfl rfl rfl nofun le_rfl (fun _ => rfl) le_rfl
  | @reap x hpc hx hchild l =>
    have hE := hedge (by rw [hpc]; rfl) (by rw [hpc]; exact nofun)
    have hl := ht.turn (by rw [hpc]; rfl)
    obtain ⟨c, -, -, -, -, hex, hdone⟩ := ha.running x hx
    rw [hE] at h
    exact (h.reap hf hx (hdone (hex.mpr (Or.inr hpc)))).congr (hl.1.trans hl.2.symm)
  | closed hpc hcsu hnow =>
    have hnone : s.currProcess = none := by
      by_contra hne
      exact hcsu (ht.running hne)
    have hE := edge_inTurn (s := s) (by rw [hpc]; rfl) (by rw [hpc]; exact nofun)
    have hsem := ha.sem_eq_zero (by rw [hpc]; exact nofun)
    have he : State.edge { s with pc := .top } = s.lastTick + 1 := by
      show s.lastTick + 1 - (s.sem : ℤ) = s.lastTick + 1
      omega
    rw [he]
    exact h.goto rfl rfl rfl rfl rfl rfl rfl nofun (by omega) (fun hne => absurd hnone hne)
      (max_le_max le_rfl (by omega))
  | listen hpc hcsu hrec =>
    have he := hin { s with contextSwitchUntil := -1, pc := .receive } (by rw [hpc]; rfl)
      (by rw [hpc]; exact nofun) rfl nofun rfl
    have hE := hedge (by rw [hpc]; rfl) (by rw [hpc]; exact nofun)
    have hl := ht.turn (by rw [hpc]; rfl)
    rw [he]
    refine h.goto rfl rfl rfl rfl rfl rfl rfl nofun le_rfl (fun _ => rfl) ?_
    show max s.contextSwitchUntil s.edge ≤ max (-1) s.edge
    omega
  | skip hpc hcsu hrec =>
    have hE := hedge (by rw [hpc]; rfl) (by rw [hpc]; exact nofun)
    have hl := ht.turn (by rw [hpc]; rfl)
    obtain ⟨hle, heq, hstop⟩ := hbehind { s with
      contextSwitchUntil := -1, pc := behindReceive s.now } (by rw [hpc]; rfl)
      (by rw [hpc]; exact nofun) rfl rfl rfl
    refine h.goto rfl rfl rfl rfl rfl rfl rfl hstop hle heq ?_
    refine le_trans ?_ (max_le_max (le_refl (-1)) hle)
    omega
  | @arrive d rest hpc hrcv h1 =>
    have hE := hedge (by rw [hpc]; rfl) (by rw [hpc]; exact nofun)
    have hd : d ∈ s.msgq := by
      obtain ⟨l, r, hq, -⟩ := MsgQueue.rcv_eq_some hrcv
      rw [hq]
      exact List.mem_append_right _ List.mem_cons_self
    have hb := h.arrive hf hplaced hpc (hE ▸ harr d hd h1) rest
    have he := hin { s with
        msgq := rest
        readyQueue := Queue.enqueuePriority s.readyQueue (createPCB d)
        perf := RRState.firstArrivalOf s.perf d
        received := s.received ++ [d] } (by rw [hpc]; rfl) (by rw [hpc]; exact nofun)
      (by rw [show s.pc = .receive from hpc]; rfl)
      (by rw [show s.pc = .receive from hpc]; exact nofun)
      rfl
    rw [he]
    exact hb
  | @sync d rest hpc hrcv h2 hnew =>
    obtain ⟨hle, heq, hstop⟩ := hbehind { s with msgq := rest, pc := behindReceive s.now }
      (by rw [hpc]; rfl) (by rw [hpc]; exact nofun) rfl rfl rfl
    exact h.goto rfl rfl rfl rfl rfl rfl rfl hstop hle heq (max_le_max le_rfl hle)
  | @last d rest hpc hrcv h5 =>
    obtain ⟨hle, heq, hstop⟩ := hbehind { s with
      msgq := rest, receivingProcesses := false, pc := behindReceive s.now }
      (by rw [hpc]; rfl) (by rw [hpc]; exact nofun) rfl rfl rfl
    exact h.goto rfl rfl rfl rfl rfl rfl rfl hstop hle heq (max_le_max le_rfl hle)
  | @drop d rest hpc hrcv h1 =>
    have he : State.edge { s with msgq := rest } = s.edge := rfl
    rw [he]
    refine h.goto rfl rfl rfl rfl rfl rfl rfl ?_ le_rfl (fun _ => rfl) le_rfl
    rw [show s.pc = .receive from hpc]
    exact nofun
  | idle hpc hrun hnone =>
    have hE := edge_inTurn (s := s) (by rw [hpc]; rfl) (by rw [hpc]; exact nofun)
    have hp := edge_permit (s := { s with pc := .permit }) rfl
    have hle : s.edge ≤ State.edge { s with pc := .permit } := hE.trans_le hp.1
    have heq : s.currProcess ≠ none → State.edge { s with pc := .permit } = s.edge :=
      fun hne => (hp.2 hne).trans hE.symm
    exact h.goto rfl rfl rfl rfl rfl rfl rfl nofun hle heq (max_le_max le_rfl hle)
  | @preempt x y q hpc hx hq hlt =>
    have hE := hedge (by rw [hpc]; rfl) (by rw [hpc]; exact nofun)
    have he := hin { s with currProcess := some { x with lastStopped := clk }, pc := .stop }
      (by rw [hpc]; rfl) (by rw [hpc]; exact nofun) rfl nofun rfl
    rw [he, hE]
    rw [hE] at h
    exact h.preempt hx
  | @dispatch x q hpc hcurr hq l =>
    have hE := hedge (by rw [hpc]; rfl) (by rw [hpc]; exact nofun)
    have hl := ht.turn (by rw [hpc]; rfl)
    rw [hE] at h
    exact (h.dispatch hf hcurr hq h0).congr (hl.1.trans hl.2.symm)
  | @stop x hpc hx l =>
    have hE := hedge (by rw [hpc]; rfl) (by rw [hpc]; exact nofun)
    have hl := ht.turn (by rw [hpc]; rfl)
    have hsem := ha.sem_eq_zero (by rw [hpc]; exact nofun)
    rw [hE] at h
    refine (h.stop hf hpc hx h0).congr ?_
    show clk + 1 = s.lastTick + 1 - (s.sem : ℤ)
    omega
  | waitStart hpc =>
    have he : State.edge { s with pc := .wait (clk + 1) } = s.edge := by rw [edge, edge, hpc]
    rw [he]
    exact h.goto rfl rfl rfl rfl rfl rfl rfl nofun le_rfl (fun _ => rfl) le_rfl
  | @waited c hpc hc =>
    have hnone := hr.waiting (Or.inr ⟨c, hpc⟩)
    have hsem := ha.sem_eq_zero (by rw [hpc]; exact nofun)
    have he : State.edge { s with pc := .permit } = s.edge := by
      rw [edge, edge, hpc]
      dsimp only
      rw [hnone, hsem, Nat.cast_zero, sub_zero]
      rfl
    rw [he]
    exact h.goto rfl rfl rfl rfl rfl rfl rfl nofun le_rfl (fun _ => rfl) le_rfl
  | permit hpc =>
    have hsem := ha.sem_eq_zero (by rw [hpc]; exact nofun)
    have he : State.edge { s with
        sem := if s.currProcess.isSome then 1 else s.sem, pc := .top } = s.edge := by
      rw [edge, edge, hpc]
      dsimp only
      split_ifs
      · exact add_sub_cancel_right _ _
      · rw [hsem, Nat.cast_zero, sub_zero]
    rw [he]
    exact h.goto rfl rfl rfl rfl rfl rfl rfl nofun le_rfl (fun _ => rfl) le_rfl

/-- **A child keeps the accounts**: a permit that it takes is for the tick of the turn. -/
theorem Books.executes (h : Books s.edge s) (ht : Timed clk s) (ha : Attended clk s)
    (hf : Forked s) (hplaced : s.Placed) (he : Executes pid clk s s') : Books s'.edge s' := by
  have hcurr : ∀ c, s.child pid = some c → c.stopped = false →
      ∃ x, s.currProcess = some x ∧ x.pid = pid := by
    intro c hc hgo
    rcases ha.others pid c hc with hstop | hx
    · exact nomatch hgo.symm.trans hstop
    · exact hx
  cases he with
  | @exit c hc hgo hlive hdone =>
    have hE : State.edge { s with
        child := Function.update s.child pid (some { c with exited := true })
        processFinishedSignal := true } = s.edge := rfl
    rw [hE]
    refine ⟨h.ready, h.running, h.stopping, h.done, ?_, ?_⟩
    · exact ⟨h.spaced.segments, h.spaced.past, h.spaced.others⟩
    · exact h.totals.goto rfl rfl rfl rfl le_rfl
  | @tick c hc hgo hlive hleft hsem =>
    obtain ⟨x, hx, rfl⟩ := hcurr c hc hgo
    obtain ⟨c', hc', -, hrem, -⟩ := ha.running x hx
    obtain rfl := Option.some.inj (hc.symm.trans hc')
    obtain ⟨hone, htop, hclk, hne, -⟩ := ha.sem.resolve_left hsem
    have hE : s.edge = clk := by
      rw [edge, htop, hone, hclk]
      exact add_sub_cancel_right _ _
    rw [hE] at h
    have hb := h.tick hf hplaced htop hx (ht.running hne) ht.nonneg (s.sem - 1)
      (Function.update s.child x.pid (some { c with remainingtime := c.remainingtime - 1 }))
    rw [← hrem] at hb
    refine hb.congr ?_
    rw [edge]
    dsimp only
    rw [htop, hone, hclk]
    exact (sub_zero _).symm

end State

namespace World

open State

variable {w w' : World} {e : Event} {l : List ProcessData}

/-- **A step keeps the accounts.** -/
theorem Kept.books (hk : Kept l w) (hb : Books w.sch.edge w.sch) (hs : Steps w e w') :
    Books w'.sch.edge w'.sch := by
  have hpost : ∀ (d : ProcessData) (g : Generator),
      Books (w.post d g).sch.edge (w.post d g).sch := by
    intro d g
    refine ⟨hb.ready, hb.running, hb.stopping, hb.done, ?_, ?_⟩
    · exact ⟨hb.spaced.segments, hb.spaced.past, hb.spaced.others⟩
    · exact hb.totals.goto rfl rfl rfl rfl le_rfl
  cases hs with
  | tick => exact hb
  | observe _ _ => exact hb
  | send _ _ _ => exact hpost _ _
  | sync _ _ => exact hpost _ _
  | last _ _ _ => exact hpost _ _
  | child he => exact hb.executes hk.timed hk.attended hk.forked hk.conserved.placed he
  | sched hm =>
    exact hb.moves hk.timed hk.attended hk.forked hk.ranked hk.conserved.placed
      (fun d hd h1 => (hk.msgq hd h1).2) hm

theorem start_kept (hl : CpuScheduler.World.Workload l) {t : ℤ} (ht : 0 ≤ t) :
    Kept l (start l t) where
  workload := hl
  ranked := ⟨List.Pairwise.nil, fun _ => rfl, fun (hc : Pc.top = .permit) => nomatch hc⟩
  conserved := start_conserved l t
  arrived := ⟨List.forall_mem_nil _, fun t (ht : none = some t) => nomatch ht⟩
  forked :=
    { once := List.nodup_nil
      range := List.forall_mem_nil _
      started := fun x (hx : none = some x) => nomatch hx
      ended := List.forall_mem_nil _
      known := List.forall_mem_nil _
      children := fun p c (hc : none = some c) => nomatch hc
      forks := le_rfl }
  timed :=
    { turn := fun (hc : false = true) => nomatch hc
      wait := fun c (hc : Pc.top = .wait c) => nomatch hc
      permit := fun (hc : Pc.top = .permit) => nomatch hc
      top := fun _ => Or.inl ⟨rfl, rfl⟩
      nonneg := ht
      tick := le_rfl
      running := fun hc => absurd rfl hc
      behind := fun _ => rfl
      stopping := by rintro (hc | hc) <;> exact nomatch (show Pc.top = _ from hc) }
  attended :=
    { running := fun x (hx : none = some x) => nomatch hx
      held := List.forall_mem_nil _
      others := fun p c (hc : none = some c) => nomatch hc
      signal := fun (hc : false = true) => nomatch hc
      sem := Or.inl rfl
      idle := fun hc => absurd rfl hc }

theorem start_books {t : ℤ} : Books (start l t).sch.edge (start l t).sch where
  ready := List.forall_mem_nil _
  running := fun x (hx : none = some x) => nomatch hx
  stopping := fun (hc : Pc.top = .stop) => nomatch hc
  done := List.forall_mem_nil _
  spaced := ⟨List.Pairwise.nil, List.forall_mem_nil _, List.forall_mem_nil _⟩
  totals := ⟨(fun d (hd : none = some d) => nomatch hd), fun _ => rfl, fun _ => rfl,
    (fun d (hd : none = some d) => nomatch hd), rfl, fun hc => absurd rfl hc⟩

/-- **In every paced run**, between its steps. -/
theorem reachable_kept (h : (systemIf Paced).Reachable w) :
    (∃ l, Kept l w) ∧ Books w.sch.edge w.sch := by
  refine h.invariant (P := fun w => (∃ l, Kept l w) ∧ Books w.sch.edge w.sch) ?_ ?_
  · rintro w ⟨l, t, hl, ht, rfl⟩
    exact ⟨⟨l, start_kept hl ht⟩, start_books⟩
  · rintro w w' ⟨⟨l, hk⟩, hb⟩ ⟨e, hst, hp⟩
    have hs := next_steps hst
    exact ⟨⟨l, hk.step hs hp⟩, hk.books hb hs⟩

/-! ### What is accounted for -/

/-- **Where the time has gone.** -/
structure Accounted (s : State) : Prop where
  /-- For a process that is ready the remaining time is in its PCB, for the running one in the
  shared cell. -/
  ready : ∀ y ∈ s.readyQueue, ticksOf s.executed y.pid + y.remainingTime = y.runtime
  running : ∀ x, s.currProcess = some x → ticksOf s.executed x.pid + s.shmRT = x.runtime
  finished : ∀ x ∈ s.finished, Done (ticksOf s.executed x.pid) x
  /-- One process executes at a time, and there is a tick between two of them. -/
  segments : s.executed.Pairwise fun a b => a.2 < b.2 ∧ (a.1 ≠ b.1 → a.2 + 2 ≤ b.2)
  /-- The processor is not busy for longer than there has been something to do. -/
  totals : s.finished ≠ [] → ∀ d, s.received.head? = some d → d.arrival ≠ -1 →
    s.perf.totalRuntime ≤ s.perf.finishTime - s.perf.firstArrival

/-- **The accounts agree** in every state of every paced run. -/
theorem accounted_of_paced (h : (systemIf Paced).Reachable w) : Accounted w.sch := by
  obtain ⟨-, hb⟩ := reachable_kept h
  refine ⟨fun y hy => (hb.ready y hy).total, fun x hx => (hb.running x hx).total, hb.done,
    hb.spaced.segments, fun hfin d hd hset => ?_⟩
  have hle := hb.totals.finish hfin d hd
  rw [hb.totals.first d hd hset]
  omega

/-! ### Two explicit runs -/

/-- Whether a step of an explicit run is paced. -/
def pacedCheck (w : World) : Event → Bool
  | .tick =>
    (match w.sch.pc with
      | .top => w.clock = w.sch.lastTick || w.sch.lastTick = -1
      | .wait c => w.clock < c
      | .exited => true
      | _ => false) &&
    (List.range w.sch.forks.toNat).all fun i => (w.sch.childStep (i + 1) w.clock).isNone
  | _ => true

theorem paced_of_check (hf : w.sch.Forked) (h : pacedCheck w e = true) : Paced w e := by
  cases e with
  | tick =>
    simp only [pacedCheck, Bool.and_eq_true, List.all_eq_true] at h
    refine ⟨?_, fun pid => ?_⟩
    · have hpc := h.1
      split at hpc
      · next htop => exact Or.inl ⟨htop, by simpa using hpc⟩
      · next c hwait => exact Or.inr (Or.inl ⟨c, hwait, by simpa using hpc⟩)
      · next hex => exact Or.inr (Or.inr hex)
      · exact nomatch hpc
    · cases hc : w.sch.child pid with
      | none => rw [childStep, hc]
      | some c =>
        -- a child has one of the pids that were given out
        obtain ⟨h1, h2⟩ := hf.children pid c hc
        have hi := h.2 (pid - 1).toNat (List.mem_range.mpr (by omega))
        have hpid : (((pid - 1).toNat : ℕ) : ℤ) + 1 = pid := by omega
        rw [hpid] at hi
        exact Option.isNone_iff_eq_none.mp hi
  | _ => trivial

/-- Make a move that is paced. -/
def playPaced (w : World) (e : Event) : Option World := if pacedCheck w e then w.next e else none

theorem playPaced_reachable {es : List Event} (h : (systemIf Paced).Reachable w)
    (hplay : TransitionSystem.playAll playPaced w es = some w') :
    (systemIf Paced).Reachable w' := by
  induction es generalizing w with
  | nil => exact Option.some.inj hplay ▸ h
  | cons e es ih =>
    obtain ⟨w₁, hw₁, hplay⟩ := Option.bind_eq_some_iff.mp hplay
    obtain ⟨⟨l, hk⟩, -⟩ := reachable_kept h
    rw [playPaced] at hw₁
    split_ifs at hw₁ with hc
    exact ih (h.step ⟨e, hw₁, paced_of_check hk.forked hc⟩) hplay

/-- The rest of the run: the urgent process finishes, and the other one goes on and finishes. -/
def urgentRest : List Event := List.flatten
  [List.replicate 4 .sched, [.tick], List.replicate 5 .sched, [.child 1, .tick],
    List.replicate 5 .sched, [.child 1, .child 1, .tick], List.replicate 4 .sched]

/-- A process that is preempted after one of its three ticks. -/
theorem accounted_of_paced_urgent :
    ∃ w, TransitionSystem.playAll playPaced (start urgent 1) (urgentRun ++ urgentRest) = some w ∧
      w.sch.finished.map PCB.id = [8, 7] ∧
      w.sch.executed = [(1, 1), (2, 3), (1, 5), (1, 6)] ∧ Accounted w.sch := by
  have hrun : (TransitionSystem.playAll playPaced (start urgent 1)
      (urgentRun ++ urgentRest)).map (fun w => (w.sch.finished.map PCB.id, w.sch.executed)) =
      some ([8, 7], [(1, 1), (2, 3), (1, 5), (1, 6)]) := by
    decide +kernel
  obtain ⟨w, hw, he⟩ := Option.map_eq_some_iff.mp hrun
  simp only [Prod.mk.injEq] at he
  have hstart : (systemIf Paced).Reachable (start urgent 1) :=
    .init ⟨urgent, 1, workload_urgent, by decide, rfl⟩
  exact ⟨w, hw, he.1, he.2, accounted_of_paced (playPaced_reachable hstart hw)⟩

/-- A process whose arrival is `-1`, and one that arrives at tick 3. -/
def earlyAndLate : List ProcessData :=
  [{ soleProcess 2 with arrival := -1, runtime := 1 },
    { soleProcess 2 with id := 8, arrival := 3, runtime := 1 }]

/-- The first process executes at tick 1, the second one at tick 3. -/
def earlyRun : List Event := List.flatten
  [[.observe, .send, .sync], List.replicate 7 .sched, [.child 1, .child 1, .tick],
    [.observe, .sync], List.replicate 4 .sched, [.tick], [.observe, .send, .sync, .last],
    List.replicate 8 .sched, [.child 2, .child 2, .tick], List.replicate 4 .sched]

/-- **With an arrival of `-1`**, the value of an unset `first_arrival`, the first arrival is taken
from another process. -/
theorem not_accounted_of_early : ¬∀ w, (systemIf Paced).Reachable w → w.sch.finished ≠ [] →
    w.sch.perf.totalRuntime ≤ w.sch.perf.finishTime - w.sch.perf.firstArrival := by
  intro hall
  have hrun : (TransitionSystem.playAll playPaced (start earlyAndLate 1) earlyRun).map (fun w =>
      (w.sch.finished.map PCB.id, w.sch.perf.totalRuntime, w.sch.perf.finishTime,
        w.sch.perf.firstArrival)) = some ([7, 8], 2, 4, 3) := by
    decide +kernel
  obtain ⟨w, hw, he⟩ := Option.map_eq_some_iff.mp hrun
  simp only [Prod.mk.injEq] at he
  obtain ⟨hfin, htotal, hfinish, hfirst⟩ := he
  have hstart : (systemIf Paced).Reachable (start earlyAndLate 1) := by
    refine .init ⟨earlyAndLate, 1, ⟨?_, ?_, ?_⟩, by decide, rfl⟩ <;> decide
  have hne : w.sch.finished ≠ [] := fun hnil => by
    rw [hnil] at hfin
    exact nomatch hfin
  have hle := hall w (playPaced_reachable hstart hw) hne
  rw [htotal, hfinish, hfirst] at hle
  omega

end World

end Hpf

end CpuScheduler
