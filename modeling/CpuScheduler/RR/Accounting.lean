import CpuScheduler.RR.Signals

/-!
# Where the time goes

Four records of the same time are kept apart: the start time, the time of the last stop
and the waiting time of a PCB, the remaining time in the shared cell or in the PCB, the
permit of the semaphore, and `context_switch_until`. When the loop makes one turn for each
value of the clock (`CpuScheduler.World.Steady`), they fit together. The time that has
been accounted for is the edge of the turn (`CpuScheduler.RRState.edge`): it is the tick
of the turn, and the next tick once the permit of the turn has been used or was not given.
Up to the edge, a process that is running has been waiting or executing since its
arrival (`CpuScheduler.PCB.Charged`); a process that is not has been so up to its last
stop (`CpuScheduler.PCB.Settled`).
-/

namespace CpuScheduler

/-- A process that is not running has executed `n` ticks. -/
structure PCB.Settled (n : ℤ) (x : PCB) : Prop where
  total : n + x.remainingTime = x.runtime
  fresh : x.pid = -1 → x.startTime = -1 ∧ n = 0
  halted : x.pid ≠ -1 → x.startTime ≠ -1 ∧ 0 ≤ x.lastStopped ∧
    x.arrival + x.waitingTime + n = x.lastStopped

/-- A process that is running, with the remaining time `rt`, has executed `n` ticks up to
the time `E`. -/
structure PCB.Charged (n rt E : ℤ) (x : PCB) : Prop where
  total : n + rt = x.runtime
  since : x.arrival + x.waitingTime + n = E
  started : x.startTime ≠ -1

namespace RRState

open Fallible Mem

variable {K : Mem → Prop} {P : Params} {clk : Clk} {s s' : RRState} {p q : Ptr} {x y : PCB}
  {m m' : Mem} {c : Child} {o : Option Ptr} {l : List (Ptr × ℤ)} {E E' n rt t : ℤ}

theorem settled_congr (h : x.Settled n) (hc : y.core = x.core) : y.Settled n := by
  obtain ⟨-, ha, hr, hrem, hw, hst, hls, hpid, -⟩ := core_eq hc
  refine ⟨by rw [hrem, hr]; exact h.total, fun hp => ?_, fun hp => ?_⟩
  · rw [hst]
    exact h.fresh (hpid ▸ hp)
  · rw [hst, hls, ha, hw]
    exact h.halted (hpid ▸ hp)

theorem charged_congr (h : x.Charged n rt E) (hc : y.core = x.core) : y.Charged n rt E := by
  obtain ⟨-, ha, hr, -, hw, hst, -, -, -⟩ := core_eq hc
  exact ⟨hr ▸ h.total, by rw [ha, hw]; exact h.since, hst ▸ h.started⟩

/-- **A process is taken off the processor** at the edge. -/
theorem settled_halt (h : x.Charged n rt E) (hE : 0 ≤ E) (hpid : x.pid ≠ -1) :
    (x.halt rt E).Settled n :=
  ⟨h.total, fun hp => absurd hp hpid, fun _ => ⟨h.started, hE, h.since⟩⟩

/-- **A process is put on the processor** at the edge. -/
theorem charged_dispatched (h : x.Settled n) (hE : 0 ≤ E) (hstart : clk .start = E)
    (hresume : clk .resume = E) (p : Ptr) : (x.dispatched clk p).Charged n x.remainingTime E := by
  unfold PCB.dispatched PCB.stamped
  by_cases hpid : x.pid = -1
  · obtain ⟨hs, rfl⟩ := h.fresh hpid
    rw [if_pos hpid, if_pos hs, hstart]
    refine ⟨h.total, ?_, ?_⟩
    · show x.arrival + (E - x.arrival) + 0 = E
      omega
    · show E ≠ -1
      omega
  · obtain ⟨hs, hstop, hsince⟩ := h.halted hpid
    rw [if_neg hpid, if_neg hs]
    refine ⟨h.total, ?_, hs⟩
    show x.arrival + (if x.lastStopped ≥ 0 then x.waitingTime + (clk .resume - x.lastStopped)
      else x.waitingTime) + n = E
    rw [if_pos hstop, hresume]
    omega

/-! ### The ticks of a process -/

/-- The number of ticks a process has executed. -/
def ticksOf (l : List (Ptr × ℤ)) (p : Ptr) : ℤ := (l.countP fun e => e.1 = p : ℕ)

theorem ticksOf_append_self (l : List (Ptr × ℤ)) (p : Ptr) (t : ℤ) :
    ticksOf (l ++ [(p, t)]) p = ticksOf l p + 1 := by
  simp [ticksOf]

theorem ticksOf_append_of_ne (l : List (Ptr × ℤ)) (hq : q ≠ p) (t : ℤ) :
    ticksOf (l ++ [(p, t)]) q = ticksOf l q := by
  simp [ticksOf, hq.symm]

theorem ticksOf_eq_zero (h : ∀ e ∈ l, e.1 ≠ p) : ticksOf l p = 0 := by
  rw [ticksOf, List.countP_eq_zero.mpr fun e he => by simpa using h e he]
  rfl

/-- All processes but `o` are settled. -/
def Balanced (o : Option Ptr) (m : Mem) (l : List (Ptr × ℤ)) : Prop :=
  ∀ q x, m.heap q = some x → o ≠ some q → x.Settled (ticksOf l q)

theorem Balanced.sameCore (h : Balanced o m l) (hm : SameCore m m') : Balanced o m' l := by
  intro q y hy hq
  obtain ⟨x, hx, hc⟩ := hm.pcb hy
  exact settled_congr (h q x hx hq) hc

theorem Balanced.halt (h : Balanced (some p) m l) (hc : x.Charged (ticksOf l p) rt E)
    (hE : 0 ≤ E) (hpid : x.pid ≠ -1) (hy : y.core = (x.halt rt E).core) :
    Balanced none (m.withPcb p y) l := by
  intro q z hz _
  by_cases hq : q = p
  · subst hq
    obtain rfl := Option.some.inj ((withPcb_heap_self ..).symm.trans hz)
    exact settled_congr (settled_halt hc hE hpid) hy
  · exact h q z ((withPcb_heap_of_ne hq _).symm.trans hz) fun he => hq (Option.some.inj he).symm

/-- A dispatch, when everybody is settled. -/
theorem Dispatches.charged (hd : Dispatches P clk s s') (h : Balanced none s.toMem l)
    (hE : 0 ≤ E) (hstart : clk .start = E) (hresume : clk .resume = E) :
    ∃ p, s'.currProcess = some p ∧ Balanced (some p) s'.toMem l ∧
      ∀ x, s'.heap p = some x → x.Charged (ticksOf l p) s'.shmRT E := by
  cases hd with
  | @intro p x m rest line hq hx hstart' hm hline =>
    refine ⟨p, hm.cur, fun q y hy hq => ?_, fun y hy => ?_⟩
    · have hne : q ≠ p := fun he => hq (he ▸ rfl)
      obtain ⟨u, hu, hc⟩ := hm.pcb hy
      exact settled_congr (h q u ((withPcb_heap_of_ne hne _).symm.trans hu) nofun) hc
    · obtain ⟨u, hu, hc⟩ := hm.pcb hy
      obtain rfl := Option.some.inj ((withPcb_heap_self ..).symm.trans hu)
      exact charged_congr (charged_dispatched (h p x hx nofun) hE hstart hresume p) hc

/-! ### The log -/

/-- **Finished processes are logged with nothing remaining**, and were waiting or executing
from their arrival on. -/
structure Logged (s : RRState) : Prop where
  lines : ∀ r ∈ s.schedulerLog, r.lState = .finish →
    r.remaining = 0 ∧ r.time - r.arrival = r.waiting + r.runtime
  count : (s.schedulerLog.countP fun r => r.lState = .finish) = s.finished.length

/-- Other lines do not matter. -/
theorem Logged.extend (h : Logged s) {ls : List LogLine}
    (hlog : s'.schedulerLog = s.schedulerLog ++ ls) (hls : ∀ r ∈ ls, r.lState ≠ .finish)
    (hfin : s'.finished = s.finished) : Logged s' where
  lines r hr hst := by
    rw [hlog] at hr
    rcases List.mem_append.mp hr with hr | hr
    · exact h.lines r hr hst
    · exact absurd hst (hls r hr)
  count := by
    have hz : ls.countP (fun r => r.lState = .finish) = 0 :=
      List.countP_eq_zero.mpr fun r hr => by simpa using hls r hr
    rw [hlog, hfin, List.countP_append, hz, Nat.add_zero, h.count]

/-- The lines that are written when a decision is made. -/
theorem Decides.log (hd : Decides K P clk s s') :
    ∃ ls, s'.schedulerLog = s.schedulerLog ++ ls ∧ ∀ r ∈ ls, r.lState ≠ .finish := by
  have hnil : ∃ ls, s.schedulerLog = s.schedulerLog ++ ls ∧ ∀ r ∈ ls, r.lState ≠ .finish :=
    ⟨[], (List.append_nil _).symm, List.forall_mem_nil _⟩
  cases hd with
  | stay => exact hnil
  | extend hp => exact hnil
  | @preempt p x s₁ _ hp hx hdue hwait hu hheld hbefore hd =>
    obtain ⟨m, u, b, n, hm, -, rfl⟩ := hu
    cases hd with
    | @intro q y m rest line hq hy hstart hm hline =>
      refine ⟨[lineOf { x with lState := .stop, remainingTime := s.shmRT } (clk .stopLog), line],
        List.append_assoc .., fun r hr => ?_⟩
      rcases List.mem_cons.mp hr with rfl | hr
      · exact nofun
      · exact List.mem_singleton.mp hr ▸ hline
  | dispatch hp hd =>
    cases hd with
    | @intro q y m rest line hq hy hstart hm hline =>
      exact ⟨[line], rfl, fun r hr => List.mem_singleton.mp hr ▸ hline⟩

theorem Serves.log (hs : Serves clk s s') :
    ∃ ls, s'.schedulerLog = s.schedulerLog ++ ls ∧ ∀ r ∈ ls, r.lState ≠ .finish := by
  have hnil : ∃ ls, s.schedulerLog = s.schedulerLog ++ ls ∧ ∀ r ∈ ls, r.lState ≠ .finish :=
    ⟨[], (List.append_nil _).symm, List.forall_mem_nil _⟩
  cases hs with
  | keep _ _ _ => exact hnil
  | block _ _ _ _ _ => exact hnil
  | switch hp hx hd hf hm hrq =>
    exact ⟨[_], rfl, fun r hr => List.mem_singleton.mp hr ▸ nofun⟩

/-! ### The segments of execution -/

/-- **The segments of execution before the time `E`**: those of different processes are
at least one tick apart, and the next process will not be dispatched too early. -/
structure Spaced (E : ℤ) (s : RRState) : Prop where
  segments : s.executed.Pairwise fun a b => a.2 < b.2 ∧ (a.1 ≠ b.1 → a.2 + 2 ≤ b.2)
  past : ∀ e ∈ s.executed, e.2 < E
  others : ∀ e ∈ s.executed, s.currProcess ≠ some e.1 → e.2 + 2 ≤ max s.contextSwitchUntil E
  switch : s.currProcess.isSome → s.contextSwitchUntil ≤ E

theorem Spaced.goto (h : Spaced E s) (hex : s'.executed = s.executed)
    (hcur : s'.currProcess = s.currProcess) (hE : E ≤ E')
    (hmax : max s.contextSwitchUntil E ≤ max s'.contextSwitchUntil E')
    (hcsu : s.currProcess.isSome → s'.contextSwitchUntil ≤ E') : Spaced E' s' where
  segments := by
    rw [hex]
    exact h.segments
  past e he := lt_of_lt_of_le (h.past e (hex ▸ he)) hE
  others e he hne := le_trans (h.others e (hex ▸ he) (hcur ▸ hne)) hmax
  switch hs := hcsu (hcur ▸ hs)

/-- The processor is given up, and the context switch begins: the next tick is the
first one in which somebody else can execute. -/
theorem Spaced.release (h : Spaced E s) (hex : s'.executed = s.executed)
    (hcur : s'.currProcess = none) (hcsu : s'.contextSwitchUntil = E + 1) : Spaced E s' where
  segments := by
    rw [hex]
    exact h.segments
  past e he := h.past e (hex ▸ he)
  others e he _ := by
    have := h.past e (hex ▸ he)
    rw [hcsu]
    omega
  switch hs := by
    rw [hcur] at hs
    exact nomatch hs

/-! ### The totals -/

/-- **The totals at the time `E`**: what has been executed since the first arrival, and the
performance figures. -/
structure Totals (E : ℤ) (s : RRState) : Prop where
  size : s.brk = s.admitted.length
  known : ∀ e ∈ s.executed, e.1 < s.brk
  ended : ∀ p ∈ s.finished, p < s.brk
  busy : ∀ d, s.admitted.head? = some d → d.arrival + s.executed.length ≤ E
  unset : s.admitted = [] → s.perf.firstArrival = -1
  first : ∀ d, s.admitted.head? = some d → d.arrival ≠ -1 → s.perf.firstArrival = d.arrival
  total : s.perf.totalRuntime = (s.executed.countP fun e => e.1 ∈ s.finished : ℕ)
  finish : s.finished ≠ [] → ∀ d, s.admitted.head? = some d →
    d.arrival + s.perf.totalRuntime ≤ s.perf.finishTime

theorem Totals.goto (h : Totals E s) (hex : s'.executed = s.executed) (hb : s'.brk = s.brk)
    (hadm : s'.admitted = s.admitted) (hperf : s'.perf = s.perf)
    (hfin : s'.finished = s.finished) (hE : E ≤ E') : Totals E' s' where
  size := by rw [hb, hadm, h.size]
  known e he := hb ▸ h.known e (hex ▸ he)
  ended p hp := hb ▸ h.ended p (hfin ▸ hp)
  busy d hd := by
    rw [hex]
    exact le_trans (h.busy d (hadm ▸ hd)) hE
  unset hnil := by
    rw [hperf]
    exact h.unset (hadm ▸ hnil)
  first d hd hne := by
    rw [hperf]
    exact h.first d (hadm ▸ hd) hne
  total := by rw [hperf, hex, hfin, h.total]
  finish hne d hd := by
    rw [hperf]
    exact h.finish (hfin ▸ hne) d (hadm ▸ hd)

/-! ### Time is kept -/

/-- **At the time `E` all accounts agree.** -/
structure Timekept (E : ℤ) (s : RRState) : Prop where
  balanced : Balanced s.currProcess s.toMem s.executed
  charged : ∀ p x, s.currProcess = some p → s.heap p = some x →
    x.Charged (ticksOf s.executed p) s.shmRT E
  spaced : Spaced E s
  totals : Totals E s
  logged : Logged s

/-- The scheduler goes on, and nothing happens that the accounts are about. -/
theorem Timekept.goto (h : Timekept E s) (hm : SameCore s.toMem s'.toMem)
    (hex : s'.executed = s.executed) (hrt : s'.shmRT = s.shmRT) (hadm : s'.admitted = s.admitted)
    (hperf : s'.perf = s.perf) (hfin : s'.finished = s.finished)
    {ls : List LogLine} (hlog : s'.schedulerLog = s.schedulerLog ++ ls)
    (hls : ∀ r ∈ ls, r.lState ≠ .finish) (hE : E ≤ E')
    (hmax : max s.contextSwitchUntil E ≤ max s'.contextSwitchUntil E')
    (hcur : s.currProcess.isSome → E' = E ∧ s'.contextSwitchUntil ≤ E) : Timekept E' s' where
  balanced := by
    rw [hm.cur, hex]
    exact h.balanced.sameCore hm
  charged p y hp hy := by
    rw [hm.cur] at hp
    obtain ⟨x, hx, hc⟩ := hm.pcb hy
    obtain ⟨rfl, -⟩ := hcur (by rw [hp]; rfl)
    rw [hex, hrt]
    exact charged_congr (h.charged p x hp hx) hc
  spaced := h.spaced.goto hex hm.cur hE hmax fun hs => by
    obtain ⟨rfl, hle⟩ := hcur hs
    exact hle
  totals := h.totals.goto hex hm.brk hadm hperf hfin hE
  logged := h.logged.extend hlog hls hfin

/-- **The running process is blocked for a page.** -/
theorem Serves.timekept (hs : Serves clk s s') (h : Timekept E s) (hE : 0 ≤ E)
    (hstop : clk .reqStopped = E) (hswitch : clk .reqSwitchAgain = E)
    (hpid : ∀ p x, s.currProcess = some p → s.heap p = some x → x.pid ≠ -1) :
    Timekept E s' := by
  obtain ⟨ls, hlog, hls⟩ := hs.log
  have hkeep : ∀ s₁ : RRState, s₁ = s' → SameCore s.toMem s₁.toMem → s₁.executed = s.executed →
      s₁.shmRT = s.shmRT → s₁.admitted = s.admitted → s₁.perf = s.perf →
      s₁.finished = s.finished → s₁.contextSwitchUntil = s.contextSwitchUntil →
      Timekept E s₁ := by
    rintro s₁ rfl hm hex hrt hadm hperf hfin hcsu
    exact h.goto hm hex hrt hadm hperf hfin hlog hls le_rfl (by rw [hcsu]) fun hs =>
      ⟨rfl, hcsu ▸ h.spaced.switch hs⟩
  cases hs with
  | keep _ hm _ => exact hkeep _ rfl hm rfl rfl rfl rfl rfl rfl
  | block _ _ _ hm _ => exact hkeep _ rfl hm rfl rfl rfl rfl rfl rfl
  | @switch m rq ck p x page raw op hp hx hd hf hm hrq =>
    have hbal : Balanced (some p) s.toMem s.executed := hp ▸ h.balanced
    have hhalt : Balanced none m s.executed := by
      refine (hbal.halt (y := x.halt s.shmRT (clk .reqStopped)) (h.charged p x hp hx) hE
        (hpid p x hp hx) ?_).sameCore hm
      rw [hstop]
    have hbrk : m.brk = s.brk := hm.brk
    refine ⟨hhalt, (fun q y hq => nomatch hq), h.spaced.release rfl rfl ?_,
      h.totals.goto rfl hbrk rfl rfl rfl le_rfl, h.logged.extend hlog hls rfl⟩
    show clk .reqSwitchAgain + 1 = E + 1
    rw [hswitch]

/-- **A process is let go of** with nothing remaining. -/
theorem Timekept.reap (h : Timekept E s) (hp : s.currProcess = some p) (hx : s.heap p = some x)
    (hr : Released s.toMem m p) (hfinish : clk .finish = E) (hdone : s.shmRT = 0)
    (hnew : p ∉ s.finished) (hlt : p < s.brk) {ch : Ptr → Option Child} {pc : Pc} {n u : ℤ} :
    Timekept E { s with
      toMem := m
      contextSwitchUntil := clk .finish + 1
      quantumsPassed := n
      schedulerLog := s.schedulerLog ++ [lineOf (x.finish s.shmRT (clk .finish)) (clk .finish)]
      perf := perfOf s.perf (x.finish s.shmRT (clk .finish)) (clk .finish)
      child := ch
      nextPreemtionTime := u
      finished := s.finished ++ [p]
      pc := pc } := by
  have hc := h.charged p x hp hx
  have htotal := hc.total
  have hsince := hc.since
  rw [hdone] at htotal
  -- the ticks of the process join those of the finished ones
  have hcount : (s.executed.countP fun e => e.1 ∈ s.finished ++ [p] : ℕ) =
      s.perf.totalRuntime + x.runtime := by
    have hsplit : ∀ l : List (Ptr × ℤ), (l.countP fun e => e.1 ∈ s.finished ++ [p]) =
        (l.countP fun e => e.1 ∈ s.finished) + l.countP fun e => e.1 = p := by
      intro l
      induction l with
      | nil => rfl
      | cons e l ih =>
        simp only [List.countP_cons, ih]
        by_cases hep : e.1 = p
        · simp only [hep, hnew, List.mem_append, List.mem_singleton, or_true, decide_true,
            decide_false, if_true, Bool.false_eq_true, if_false]
          omega
        · simp only [hep, List.mem_append, List.mem_singleton, or_false, decide_false,
            Bool.false_eq_true, if_false]
          omega
    rw [hsplit, h.totals.total, ← htotal, add_zero]
    push_cast
    rfl
  refine ⟨?_, ?_, h.spaced.release rfl hr.cur (by rw [hfinish]), ?_, ?_⟩
  · intro q y hy _
    have hy : m.heap q = some y := hy
    have hqp : q ≠ p := by
      rintro rfl
      rw [hr.heap, Function.update_self] at hy
      exact nomatch hy
    refine h.balanced q y ((hr.heap_of_ne hqp).symm.trans hy) ?_
    rw [hp]
    exact fun he => hqp (Option.some.inj he).symm
  · intro q y hq
    exact nomatch hr.cur.symm.trans hq
  · refine ⟨hr.brk.trans h.totals.size, fun e he => ?_, fun q hq => ?_, h.totals.busy,
      h.totals.unset, h.totals.first, ?_, fun _ d hd => ?_⟩
    · show e.1 < m.brk
      rw [hr.brk]
      exact h.totals.known e he
    · show q < m.brk
      rw [hr.brk]
      rcases List.mem_append.mp hq with hq | hq
      · exact h.totals.ended q hq
      · exact List.mem_singleton.mp hq ▸ hlt
    · exact hcount.symm
    · show d.arrival + (s.perf.totalRuntime + x.runtime) ≤ clk .finish
      have hbusy := h.totals.busy d hd
      have hle : (s.executed.countP fun e => e.1 ∈ s.finished ++ [p]) ≤ s.executed.length :=
        List.countP_le_length
      omega
  · refine ⟨fun r hr hst => ?_, ?_⟩
    · rcases List.mem_append.mp hr with hr | hr
      · exact h.logged.lines r hr hst
      · obtain rfl := List.mem_singleton.mp hr
        refine ⟨hdone, ?_⟩
        have htime :
            (lineOf (x.finish s.shmRT (clk .finish)) (clk .finish)).time = clk .finish := by
          simp only [lineOf, PCB.finish]
          split_ifs <;> rfl
        rw [htime]
        show clk .finish - x.arrival = x.waitingTime + x.runtime
        omega
    · show (s.schedulerLog ++ [_]).countP _ = (s.finished ++ [p]).length
      rw [List.countP_append, h.logged.count, List.length_append]
      rfl

/-- **A process is received.** -/
theorem Timekept.receive {d : ProcessData} (h : Timekept E s) (hw : s.toMem.Wf)
    (hfresh : s.toMem.Fresh) (hd : d.arrival ≤ E) : Timekept E (s.receiveProcess d) := by
  have hknown : ∀ e ∈ s.executed, e.1 ≠ s.brk := fun e he => (h.totals.known e he).ne
  have hhead : ∀ d', (s.admitted ++ [d]).head? = some d' →
      s.admitted.head? = some d' ∨ (s.admitted = [] ∧ d' = d) := by
    intro d' hd'
    cases hadm : s.admitted with
    | nil =>
      rw [hadm] at hd'
      exact Or.inr ⟨rfl, (Option.some.inj hd').symm⟩
    | cons a l =>
      rw [hadm] at hd'
      exact Or.inl hd'
  -- nothing has been executed before the first process is received
  have hnil : s.admitted = [] → s.executed = [] := by
    intro hadm
    refine List.eq_nil_iff_forall_not_mem.mpr fun e he => ?_
    have hlt := h.totals.known e he
    rw [h.totals.size, hadm] at hlt
    exact absurd hlt (Nat.not_lt_zero _)
  have hended : s.admitted = [] → s.finished = [] := by
    intro hadm
    refine List.eq_nil_iff_forall_not_mem.mpr fun p hp => ?_
    have hlt := h.totals.ended p hp
    rw [h.totals.size, hadm] at hlt
    exact absurd hlt (Nat.not_lt_zero _)
  refine ⟨fun q x hx hq => ?_, fun p x hp hx => ?_, ⟨h.spaced.segments, h.spaced.past,
    h.spaced.others, h.spaced.switch⟩, ?_, ⟨h.logged.lines, h.logged.count⟩⟩
  · by_cases hb : q = s.brk
    · subst hb
      have hself : (s.receiveProcess d).heap s.brk = some (createPCB d) := Function.update_self ..
      obtain rfl := Option.some.inj (hself.symm.trans hx)
      rw [show (s.receiveProcess d).executed = s.executed from rfl, ticksOf_eq_zero hknown]
      exact ⟨zero_add _, fun _ => ⟨rfl, rfl⟩, fun hne => absurd rfl hne⟩
    · exact h.balanced q x ((Function.update_of_ne hb ..).symm.trans hx) hq
  · have hb : p ≠ s.brk := by
      rintro rfl
      exact hfresh.not_mem hw (hw.cur hp)
    exact h.charged p x hp ((Function.update_of_ne hb ..).symm.trans hx)
  · refine ⟨?_, fun e he => Nat.lt_succ_of_lt (h.totals.known e he),
      fun p hp => Nat.lt_succ_of_lt (h.totals.ended p hp), fun d' hd' => ?_, fun hadm => ?_,
      fun d' hd' hne => ?_, ?_, fun hfin d' hd' => ?_⟩
    · show s.brk + 1 = (s.admitted ++ [d]).length
      rw [List.length_append, h.totals.size]
      rfl
    · rcases hhead d' hd' with hd' | ⟨hadm, rfl⟩
      · exact h.totals.busy d' hd'
      · show d'.arrival + s.executed.length ≤ E
        rw [hnil hadm, List.length_nil]
        omega
    · exact absurd hadm (List.append_ne_nil_of_right_ne_nil _ (List.cons_ne_nil _ _))
    · show (firstArrivalOf s.perf d).firstArrival = d'.arrival
      rw [firstArrivalOf]
      rcases hhead d' hd' with hd' | ⟨hadm, rfl⟩
      · have hfirst := h.totals.first d' hd' hne
        rw [if_neg (by rw [hfirst]; exact hne)]
        exact hfirst
      · rw [if_pos (h.totals.unset hadm)]
    · rw [show (s.receiveProcess d).perf.totalRuntime = s.perf.totalRuntime by
        show (firstArrivalOf s.perf d).totalRuntime = _
        rw [firstArrivalOf]
        split_ifs <;> rfl]
      exact h.totals.total
    · have hperf : (firstArrivalOf s.perf d).totalRuntime = s.perf.totalRuntime ∧
          (firstArrivalOf s.perf d).finishTime = s.perf.finishTime := by
        rw [firstArrivalOf]
        split_ifs <;> exact ⟨rfl, rfl⟩
      show d'.arrival + (firstArrivalOf s.perf d).totalRuntime ≤
        (firstArrivalOf s.perf d).finishTime
      rw [hperf.1, hperf.2]
      rcases hhead d' hd' with hd' | ⟨hadm, rfl⟩
      · exact h.totals.finish hfin d' hd'
      · exact absurd (hended hadm) hfin

/-- **A decision is made**: the process that runs after a preemption is put on the processor
one tick later. -/
theorem Decides.timekept (hd : Decides K P clk s s') (h : Timekept E s) (hE : 0 ≤ E)
    (hopen : s.contextSwitchUntil = -1)
    (hpid : ∀ p x, s.currProcess = some p → s.heap p = some x → x.pid ≠ -1)
    (hclk : ∃ b, clk = World.readings E b ∧ (b = E ∨ (b = E + 1 ∧ s.currProcess.isSome))) :
    (s'.contextSwitchUntil = -1 ∧ Timekept E s') ∨
      (s'.contextSwitchUntil = E + 1 ∧ s'.currProcess.isSome ∧ Timekept (E + 1) s') := by
  obtain ⟨ls, hlog, hls⟩ := hd.log
  obtain ⟨b, rfl, hb⟩ := hclk
  cases hd with
  | stay => exact Or.inl ⟨hopen, h⟩
  | extend hp =>
    refine Or.inl ⟨hopen, h.goto (SameCore.refl _) rfl rfl rfl rfl rfl hlog hls le_rfl le_rfl
      fun _ => ⟨rfl, ?_⟩⟩
    show s.contextSwitchUntil ≤ E
    omega
  | @preempt p x s₁ _ hp hx hdue hwait hu hheld hbefore hd =>
    -- the wait ends at the next tick
    have hb' : b = E + 1 := by
      have hw : E + 1 ≤ b := hwait
      omega
    subst hb'
    have hbal : Balanced (some p) s.toMem s.executed := hp ▸ h.balanced
    have hstop : Balanced none (s.stopped (World.readings E (E + 1)) p x).toMem s.executed :=
      hbal.halt (h.charged p x hp hx) hE (hpid p x hp hx) rfl
    obtain ⟨m, u, b, n, hm, -, rfl⟩ := hu
    obtain ⟨q, hcur, hothers, hcharged⟩ := hd.charged (E := E + 1) (hstop.sameCore hm) (by omega)
      rfl rfl
    refine Or.inr ?_
    have hframe : s'.contextSwitchUntil = E + 1 ∧ s'.executed = s.executed ∧
        s'.toMem.brk = s.brk ∧ s'.admitted = s.admitted ∧ s'.perf = s.perf ∧
        s'.finished = s.finished := by
      cases hd with
      | intro hq hy hstart hm' hline => exact ⟨rfl, rfl, hm'.brk.trans hm.brk, rfl, rfl, rfl⟩
    obtain ⟨hcsu, hex, hbrk, hadm, hperf, hfin⟩ := hframe
    refine ⟨hcsu, by rw [hcur]; rfl, ?_, ?_, ?_, h.totals.goto hex hbrk hadm hperf hfin (by omega),
      h.logged.extend hlog hls hfin⟩
    · rw [hcur, hex]
      exact hothers
    · intro r y hr hy
      obtain rfl := Option.some.inj (hcur.symm.trans hr)
      rw [hex]
      exact hcharged y hy
    · refine ⟨hex ▸ h.spaced.segments, fun e he => ?_, fun e he _ => ?_, fun _ => hcsu.le⟩
      · have := h.spaced.past e (hex ▸ he)
        omega
      · have := h.spaced.past e (hex ▸ he)
        omega
  | @dispatch s₁ hp hd =>
    have hb' : b = E := by
      refine hb.resolve_right ?_
      rintro ⟨-, hs⟩
      rw [hp] at hs
      exact nomatch hs
    subst hb'
    have hbal : Balanced none s.toMem s.executed := hp ▸ h.balanced
    obtain ⟨q, hcur, hothers, hcharged⟩ := hd.charged hbal hE rfl rfl
    have hframe : s₁.contextSwitchUntil = s.contextSwitchUntil ∧ s₁.executed = s.executed ∧
        s₁.toMem.brk = s.brk ∧ s₁.admitted = s.admitted ∧ s₁.perf = s.perf ∧
        s₁.finished = s.finished := by
      cases hd with
      | intro hq hy hstart hm' hline => exact ⟨rfl, rfl, hm'.brk, rfl, rfl, rfl⟩
    obtain ⟨hcsu, hex, hbrk, hadm, hperf, hfin⟩ := hframe
    refine Or.inl ⟨hcsu.trans hopen, ?_, ?_, ?_, h.totals.goto hex hbrk hadm hperf hfin le_rfl,
      h.logged.extend hlog hls hfin⟩
    · show Balanced s₁.currProcess s₁.toMem s₁.executed
      rw [hcur, hex]
      exact hothers
    · intro r y hr hy
      obtain rfl := Option.some.inj (hcur.symm.trans hr)
      show y.Charged (ticksOf s₁.executed q) s₁.shmRT _
      rw [hex]
      exact hcharged y hy
    · refine ⟨hex ▸ h.spaced.segments, fun e he => h.spaced.past e (hex ▸ he), fun e he _ => ?_,
        fun _ => ?_⟩
      · have hothers := h.spaced.others e (hex ▸ he) (by rw [hp]; exact nofun)
        show e.2 + 2 ≤ max s₁.contextSwitchUntil _
        rw [hcsu]
        exact hothers
      · show s₁.contextSwitchUntil ≤ _
        omega

/-- **A tick is executed**, at the time `E`. -/
theorem Timekept.tick (h : Timekept E s) (hp : s.currProcess = some p)
    (hrt : s.shmRT = c.remainingtime) (hE : s.lastTick = E)
    (hnew : p ∉ s.finished) (hlt : p < s.brk) : Timekept (E + 1) (s.childTick p c) := by
  have hrec : (s.childTick p c).executed = s.executed ++ [(p, E)] := by rw [← hE]; rfl
  refine ⟨fun q x hx hq => ?_, fun q x hq hx => ?_, ?_, ?_, ⟨h.logged.lines, h.logged.count⟩⟩
  · have hne : q ≠ p := by
      rintro rfl
      exact hq hp
    rw [hrec, ticksOf_append_of_ne _ hne]
    exact h.balanced q x hx hq
  · obtain rfl : p = q := Option.some.inj (hp.symm.trans hq)
    have hch := h.charged p x hp hx
    rw [hrec, ticksOf_append_self]
    refine ⟨?_, ?_, hch.started⟩
    · have := hch.total
      show ticksOf s.executed p + 1 + (c.remainingtime - 1) = x.runtime
      omega
    · have := hch.since
      omega
  · refine ⟨?_, fun e he => ?_, fun e he hne => ?_, fun _ => ?_⟩
    · rw [hrec]
      refine List.pairwise_append.mpr ⟨h.spaced.segments, List.pairwise_singleton _ _, ?_⟩
      rintro e he _ hmem
      obtain rfl := List.mem_singleton.mp hmem
      refine ⟨h.spaced.past e he, fun hne => ?_⟩
      have hle := h.spaced.others e he (by rw [hp]; exact fun he => hne (Option.some.inj he).symm)
      have := h.spaced.switch (by rw [hp]; rfl)
      show e.2 + 2 ≤ E
      omega
    · rw [hrec] at he
      rcases List.mem_append.mp he with he | he
      · have := h.spaced.past e he
        omega
      · obtain rfl := List.mem_singleton.mp he
        show E < E + 1
        omega
    · rw [hrec] at he
      show e.2 + 2 ≤ max s.contextSwitchUntil (E + 1)
      rcases List.mem_append.mp he with he | he
      · have := h.spaced.others e he hne
        omega
      · obtain rfl := List.mem_singleton.mp he
        exact absurd hp hne
    · have := h.spaced.switch (by rw [hp]; rfl)
      show s.contextSwitchUntil ≤ E + 1
      omega
  · refine ⟨h.totals.size, fun e he => ?_, h.totals.ended, fun d hd => ?_, h.totals.unset,
      h.totals.first, ?_, h.totals.finish⟩
    · rw [hrec] at he
      rcases List.mem_append.mp he with he | he
      · exact h.totals.known e he
      · obtain rfl := List.mem_singleton.mp he
        exact hlt
    · have := h.totals.busy d hd
      rw [hrec, List.length_append, List.length_singleton]
      push_cast
      omega
    · have hz : [(p, E)].countP (fun e => e.1 ∈ s.finished) = 0 :=
        List.countP_eq_zero.mpr fun e he => by
          obtain rfl := List.mem_singleton.mp he
          simpa using hnew
      rw [hrec]
      show s.perf.totalRuntime =
        ((s.executed ++ [(p, E)]).countP fun e => e.1 ∈ s.finished : ℕ)
      rw [List.countP_append, hz, Nat.add_zero, h.totals.total]

/-! ### The turns -/

/-- **The edge of the turn**: the time that has been accounted for. -/
def edge (s : RRState) : ℤ :=
  match s.pc with
  | .top | .last | .exited => s.lastTick + 1 - s.sem
  | _ => s.lastTick

/-- What the variables of the loop say about each other. -/
structure Clocked (s : RRState) : Prop where
  now : s.pc ≠ .top → s.pc ≠ .exited → s.now = s.lastTick ∧ 0 ≤ s.lastTick
  begun : s.currProcess.isSome → 0 ≤ s.lastTick
  gate : s.pc = .receive ∨ s.pc = .algo → s.contextSwitchUntil = -1

/-- Inside a turn, the tick of the turn does not change. -/
theorem Clocked.go (h : Clocked s) (htop : s.pc ≠ .top) (hexit : s.pc ≠ .exited)
    (hn : s'.now = s.now) (hl : s'.lastTick = s.lastTick)
    (hgate : s'.pc = .receive ∨ s'.pc = .algo → s'.contextSwitchUntil = -1) : Clocked s' := by
  obtain ⟨hnow, hpos⟩ := h.now htop hexit
  exact ⟨fun _ _ => ⟨by rw [hn, hl, hnow], by rw [hl]; exact hpos⟩, fun _ => by rw [hl]; exact hpos,
    hgate⟩

theorem Turn.clocked (ht : Turn K P clk s s') (h : Clocked s) (hclk : 0 ≤ clk .now) :
    Clocked s' := by
  have hgo : ∀ {pc : Pc} (s₁ : RRState), s.pc = pc → pc ≠ .top → pc ≠ .exited →
      s₁.now = s.now → s₁.lastTick = s.lastTick →
      (s₁.pc = .receive ∨ s₁.pc = .algo → s₁.contextSwitchUntil = -1) → Clocked s₁ := by
    rintro pc s₁ rfl htop hexit hn hl hgate
    exact h.go htop hexit hn hl hgate
  have hno : ∀ {pc : Pc}, pc ≠ .receive → pc ≠ .algo → pc = .receive ∨ pc = .algo →
      s'.contextSwitchUntil = -1 := fun h1 h2 h => (h.elim h1 h2).elim
  cases ht with
  | exit hpc _ _ _ _ => exact ⟨fun _ hne => absurd rfl hne, h.begun, (by simp)⟩
  | spin hpc => exact h
  | tick hpc hne => exact ⟨fun _ _ => ⟨rfl, hclk⟩, fun _ => hclk, (by simp)⟩
  | idle hpc hcur => exact hgo _ hpc (by simp) (by simp) rfl rfl (hno (by simp) (by simp))
  | serve hpc hcur hs =>
    obtain ⟨rq, mq, hf⟩ := fetched_eq clk s
    rw [hf] at hs
    cases hs <;> exact hgo _ hpc (by simp) (by simp) rfl rfl (hno (by simp) (by simp))
  | firstScan hpc hu =>
    obtain ⟨m, u, b, n, hm, -, rfl⟩ := hu
    exact hgo _ hpc (by simp) (by simp) rfl rfl (hno (by simp) (by simp))
  | finish hpc hcur hsig => exact hgo _ hpc (by simp) (by simp) rfl rfl (hno (by simp) (by simp))
  | unfinished hpc hnot => exact hgo _ hpc (by simp) (by simp) rfl rfl (hno (by simp) (by simp))
  | reap hpc hcur hx hwait hr =>
    exact hgo _ hpc (by simp) (by simp) rfl rfl (hno (by simp) (by simp))
  | shut hpc hset hlt => exact hgo _ hpc (by simp) (by simp) rfl rfl (hno (by simp) (by simp))
  | listen hpc hopen hrec hnow => exact hgo _ hpc (by simp) (by simp) rfl rfl fun _ => rfl
  | skip hpc hopen hnot => exact hgo _ hpc (by simp) (by simp) rfl rfl fun _ => rfl
  | arrive hpc hrcv hd => exact hgo _ hpc (by simp) (by simp) rfl rfl fun _ => h.gate (Or.inl hpc)
  | sync hpc hrcv hd hnow =>
    exact hgo _ hpc (by simp) (by simp) rfl rfl fun _ => h.gate (Or.inl hpc)
  | last hpc hrcv hd => exact hgo _ hpc (by simp) (by simp) rfl rfl fun _ => h.gate (Or.inl hpc)
  | drop hpc hrcv h1 h5 h2 =>
    exact hgo _ hpc (by simp) (by simp) rfl rfl fun _ => h.gate (Or.inl hpc)
  | @algo s₁ m print cl hpc hd hm _ =>
    have hframe : s₁.now = s.now ∧ s₁.lastTick = s.lastTick := by
      rcases hd with ⟨-, hd⟩ | ⟨-, rfl⟩
      · obtain ⟨m, r, b, n, t, u, k, rt, log, ch, c, rfl⟩ := hd.frame
        exact ⟨rfl, rfl⟩
      · exact ⟨rfl, rfl⟩
    rw [permit]
    split_ifs <;> exact hgo _ hpc (by simp) (by simp) hframe.1 hframe.2 (by simp)
  | lastScan hpc hu =>
    obtain ⟨m, u, b, n, hm, -, rfl⟩ := hu
    exact hgo _ hpc (by simp) (by simp) rfl rfl (hno (by simp) (by simp))

/-- **One turn for each value of the clock**: a turn begins at the tick after the last one
(the first one at any tick), and all its readings are of its tick, but those after the
wait in the middle of a preemption, which are of the next one. -/
def Steady (clk : Clk) (s : RRState) : Prop :=
  match s.pc with
  | .top => clk .now = s.lastTick ∨ clk .now = s.lastTick + 1 ∨ s.lastTick = -1
  | .algo => ∃ b, clk = World.readings s.now b ∧
      (b = s.now ∨ (b = s.now + 1 ∧ s.currProcess.isSome))
  | .last | .exited => True
  | _ => ∀ x, clk x = s.now

/-- Nor is there one when requests are served. -/
theorem Paced.sem_requests (h : Paced s) (hpc : s.pc = .requests) : s.sem = 0 := by
  cases hp : s.currProcess with
  | none => exact (h.idle hp).1
  | some p =>
    obtain ⟨c, hc⟩ := h.active p hp
    have hperm := hc.permit
    rw [hpc] at hperm
    exact hperm.1

/-- Nor is there one before the decision of a turn. -/
theorem Paced.sem_algo (h : Paced s) (hpc : s.pc = .algo) : s.sem = 0 := by
  cases hp : s.currProcess with
  | none => exact (h.idle hp).1
  | some p =>
    obtain ⟨c, hc⟩ := h.active p hp
    have hperm := hc.permit
    rw [hpc] at hperm
    exact hperm.1

/-- A process that is running has been started. -/
theorem Paced.pid (h : Paced s) : ∀ p x, s.currProcess = some p → s.heap p = some x →
    x.pid ≠ -1 := by
  intro p x hp hx
  obtain ⟨c, hc⟩ := h.active p hp
  obtain ⟨y, hy, hpid⟩ := hc.pid
  obtain rfl := Option.some.inj (hx.symm.trans hy)
  omega

/-- Inside a turn the edge is its tick. -/
theorem Timekept.move (h : Timekept s.edge s) (hedge : s.edge = s.lastTick)
    (hm : SameCore s.toMem s'.toMem) (hex : s'.executed = s.executed) (hrt : s'.shmRT = s.shmRT)
    (hadm : s'.admitted = s.admitted) (hperf : s'.perf = s.perf) (hfin : s'.finished = s.finished)
    (hlog : s'.schedulerLog = s.schedulerLog) (hedge' : s'.edge = s.lastTick)
    (hcsu : s'.contextSwitchUntil = s.contextSwitchUntil) : Timekept s'.edge s' := by
  rw [hedge']
  rw [hedge] at h
  exact h.goto hm hex hrt hadm hperf hfin (by rw [hlog, List.append_nil]) (List.forall_mem_nil _)
    le_rfl (by rw [hcsu]) fun hs => ⟨rfl, hcsu ▸ h.spaced.switch hs⟩

/-- The decision, and the permit that goes with it. -/
theorem Timekept.permit (h : (s.contextSwitchUntil = -1 ∧ Timekept E s) ∨
      (s.contextSwitchUntil = E + 1 ∧ s.currProcess.isSome ∧ Timekept (E + 1) s))
    (hE : 0 ≤ E) (hnow : s.now = E) (hl : s.lastTick = E) (hsem : s.sem = 0) {pc : Pc}
    (hpc : pc = .last) :
    Timekept ({ s.permit with pc := pc } : RRState).edge { s.permit with pc := pc } := by
  subst hpc
  rw [RRState.permit]
  rcases h with ⟨hcsu, h⟩ | ⟨hcsu, hs, h⟩
  · split_ifs with hgive
    · have hedge : ({ s with sem := 1, pc := .last } : RRState).edge = E := by
        show s.lastTick + 1 - 1 = E
        omega
      show Timekept ({ s with sem := 1, pc := .last } : RRState).edge _
      rw [hedge]
      exact h.goto (SameCore.refl _) rfl rfl rfl rfl rfl (List.append_nil _).symm
        (List.forall_mem_nil _) le_rfl le_rfl fun hs => ⟨rfl, h.spaced.switch hs⟩
    · have hcur : ¬s.currProcess.isSome := fun hs => hgive ⟨hs, by omega⟩
      have hedge : ({ s with pc := .last } : RRState).edge = E + 1 := by
        show s.lastTick + 1 - (s.sem : ℤ) = E + 1
        rw [hsem, hl]
        omega
      rw [hedge]
      exact h.goto (SameCore.refl _) rfl rfl rfl rfl rfl (List.append_nil _).symm
        (List.forall_mem_nil _) (by omega) (max_le_max_left _ (by omega))
        fun hs => absurd hs hcur
  · rw [if_neg (by omega)]
    have hedge : ({ s with pc := .last } : RRState).edge = E + 1 := by
      show s.lastTick + 1 - (s.sem : ℤ) = E + 1
      rw [hsem, hl]
      omega
    rw [hedge]
    exact h.goto (SameCore.refl _) rfl rfl rfl rfl rfl (List.append_nil _).symm
      (List.forall_mem_nil _) le_rfl le_rfl fun hs => ⟨rfl, h.spaced.switch hs⟩

/-- **A turn keeps the accounts**, in a run that is steady. -/
theorem Turn.timekept (ht : Turn K P clk s s') (h : Timekept s.edge s) (hp : Paced s)
    (hp' : Paced s') (hc : Clocked s) (hcust : s.Custody [] s.currProcess.toList)
    (hpos : 0 ≤ clk .now) (hsteady : Steady clk s)
    (harr : s.pc = .receive → ∀ d ∈ s.msgq, d.mtype = 1 → d.arrival ≤ s.lastTick) :
    Timekept s'.edge s' := by
  have hin : ∀ {pc : Pc}, s.pc = pc → pc ≠ .top → pc ≠ .exited →
      s.now = s.lastTick ∧ 0 ≤ s.lastTick := by
    rintro pc rfl htop hexit
    exact hc.now htop hexit
  cases ht with
  | exit hpc _ _ _ hcur =>
    have hedge : ({ s with pc := .exited } : RRState).edge = s.edge := by rw [edge, edge, hpc]
    rw [hedge]
    exact h.goto (SameCore.refl _) rfl rfl rfl rfl rfl (List.append_nil _).symm
      (List.forall_mem_nil _) le_rfl le_rfl fun hs => ⟨rfl, h.spaced.switch hs⟩
  | spin hpc => exact h
  | tick hpc hne =>
    have hsem : s.sem = 0 := hp'.sem_requests rfl
    have hedge : s.edge = s.lastTick + 1 := by
      rw [edge, hpc]
      show s.lastTick + 1 - (s.sem : ℤ) = _
      rw [hsem]
      omega
    rw [Steady, hpc] at hsteady
    have hsteady : clk .now = s.lastTick ∨ clk .now = s.lastTick + 1 ∨ s.lastTick = -1 := hsteady
    rw [hedge] at h
    show Timekept (clk .now) _
    refine h.goto (SameCore.refl _) rfl rfl rfl rfl rfl (List.append_nil _).symm
      (List.forall_mem_nil _) ?_ (max_le_max_left _ ?_) fun hs => ⟨?_, h.spaced.switch hs⟩
    · omega
    · omega
    · have := hc.begun hs
      omega
  | idle hpc hcur =>
    exact h.move (by rw [edge, hpc]) (SameCore.refl _) rfl rfl rfl rfl rfl rfl rfl rfl
  | @serve s₁ hpc hcur hs =>
    obtain ⟨hnow, hpos⟩ := hin hpc nofun nofun
    obtain ⟨rq, mq, hf⟩ := fetched_eq clk s
    rw [Steady, hpc] at hsteady
    have hsteady : ∀ x, clk x = s.now := hsteady
    have hedge : s.edge = s.lastTick := by rw [edge, hpc]
    rw [hf] at hs
    rw [hedge] at h
    have hfetch : Timekept s.lastTick { s with requests := rq, reqMsgq := mq } :=
      h.goto (SameCore.refl _) rfl rfl rfl rfl rfl (List.append_nil _).symm
        (List.forall_mem_nil _) le_rfl le_rfl fun hs => ⟨rfl, h.spaced.switch hs⟩
    have h₁ : Timekept s.lastTick s₁ := hs.timekept hfetch hpos
      ((hsteady _).trans hnow) ((hsteady _).trans hnow) hp.pid
    have hl : s₁.lastTick = s.lastTick := by cases hs <;> rfl
    show Timekept s₁.lastTick _
    rw [hl]
    exact h₁.goto (SameCore.refl _) rfl rfl rfl rfl rfl (List.append_nil _).symm
      (List.forall_mem_nil _) le_rfl le_rfl fun hs => ⟨rfl, h₁.spaced.switch hs⟩
  | firstScan hpc hu =>
    obtain ⟨m, u, b, n, hm, -, rfl⟩ := hu
    exact h.move (by rw [edge, hpc]) hm rfl rfl rfl rfl rfl rfl rfl rfl
  | finish hpc hcur hsig =>
    exact h.move (by rw [edge, hpc]) (SameCore.refl _) rfl rfl rfl rfl rfl rfl rfl rfl
  | unfinished hpc hnot =>
    exact h.move (by rw [edge, hpc]) (SameCore.refl _) rfl rfl rfl rfl rfl rfl rfl rfl
  | @reap m p x hpc hcur hx hwait hr =>
    obtain ⟨hnow, hpos⟩ := hin hpc nofun nofun
    rw [Steady, hpc] at hsteady
    have hsteady : ∀ x, clk x = s.now := hsteady
    have hedge : s.edge = s.lastTick := by rw [edge, hpc]
    rw [hedge] at h
    obtain ⟨c, hact⟩ := hp.active p hcur
    have hdone : s.shmRT = 0 := by
      rw [hact.shared]
      exact hact.exited (hwait c hact.child)
    have hmem : p ∈ s.currentPCBs := hcust.wf.cur hcur
    have hnew : p ∉ s.finished := by
      have hn : (s.received : Multiset Ptr).Nodup := Multiset.coe_nodup.mpr hcust.once
      rw [hcust.history, Multiset.nodup_add] at hn
      exact fun hf => Multiset.disjoint_left.mp hn.2.2 (Multiset.mem_coe.mpr hf)
        (Multiset.mem_coe.mpr hmem)
    have hlt : p < s.brk := by
      by_contra hge
      exact nomatch (hcust.fresh p (not_lt.mp hge)).symm.trans hx
    exact h.reap hcur hx hr ((hsteady _).trans hnow) hdone hnew hlt
  | shut hpc hset hlt =>
    obtain ⟨hnow, hpos⟩ := hin hpc nofun nofun
    have hedge : s.edge = s.lastTick := by rw [edge, hpc]
    rw [hedge] at h
    have hnone : ¬s.currProcess.isSome := fun hs => by
      have := h.spaced.switch hs
      omega
    have hsem : s.sem = 0 := (hp.idle (by simpa using hnone)).1
    have hedge' : ({ s with pc := .last } : RRState).edge = s.lastTick + 1 := by
      show s.lastTick + 1 - (s.sem : ℤ) = _
      rw [hsem]
      omega
    rw [hedge']
    exact h.goto (SameCore.refl _) rfl rfl rfl rfl rfl (List.append_nil _).symm
      (List.forall_mem_nil _) (by omega) (max_le_max_left _ (by omega)) fun hs => absurd hs hnone
  | listen hpc hopen hrec hnew =>
    obtain ⟨hnow, hpos⟩ := hin hpc nofun nofun
    have hedge : s.edge = s.lastTick := by rw [edge, hpc]
    rw [hedge] at h
    show Timekept s.lastTick _
    refine h.goto (SameCore.refl _) rfl rfl rfl rfl rfl (List.append_nil _).symm
      (List.forall_mem_nil _) le_rfl ?_ fun _ => ⟨rfl, ?_⟩
    · show max s.contextSwitchUntil s.lastTick ≤ max (-1) s.lastTick
      omega
    · show (-1 : ℤ) ≤ s.lastTick
      omega
  | skip hpc hopen hnot =>
    obtain ⟨hnow, hpos⟩ := hin hpc nofun nofun
    have hedge : s.edge = s.lastTick := by rw [edge, hpc]
    rw [hedge] at h
    show Timekept s.lastTick _
    refine h.goto (SameCore.refl _) rfl rfl rfl rfl rfl (List.append_nil _).symm
      (List.forall_mem_nil _) le_rfl ?_ fun _ => ⟨rfl, ?_⟩
    · show max s.contextSwitchUntil s.lastTick ≤ max (-1) s.lastTick
      omega
    · show (-1 : ℤ) ≤ s.lastTick
      omega
  | @arrive d rest hpc hrcv hd =>
    have hedge : s.edge = s.lastTick := by rw [edge, hpc]
    have hmem : d ∈ s.msgq := (MsgQueue.perm_of_rcv hrcv).mem_iff.mpr List.mem_cons_self
    have hle := harr hpc d hmem hd
    have hedge' : (({ s with msgq := rest } : RRState).receiveProcess d).edge = s.lastTick := by
      show RRState.edge { s with msgq := rest } = _
      rw [edge, hpc]
    rw [hedge] at h
    rw [hedge']
    have h₁ : Timekept s.lastTick { s with msgq := rest } :=
      h.goto (SameCore.refl _) rfl rfl rfl rfl rfl (List.append_nil _).symm
        (List.forall_mem_nil _) le_rfl le_rfl fun hs => ⟨rfl, h.spaced.switch hs⟩
    exact h₁.receive hcust.wf hcust.fresh hle
  | sync hpc hrcv hd hnow =>
    exact h.move (by rw [edge, hpc]) (SameCore.refl _) rfl rfl rfl rfl rfl rfl rfl rfl
  | last hpc hrcv hd =>
    exact h.move (by rw [edge, hpc]) (SameCore.refl _) rfl rfl rfl rfl rfl rfl rfl rfl
  | drop hpc hrcv h1 h5 h2 =>
    exact h.move (by rw [edge, hpc]) (SameCore.refl _) rfl rfl rfl rfl rfl rfl
      (by rw [edge, hpc]) rfl
  | @algo s₁ m print cl hpc hd hm _ =>
    obtain ⟨hnow, hpos⟩ := hin hpc nofun nofun
    have hopen := hc.gate (Or.inr hpc)
    have hedge : s.edge = s.lastTick := by rw [edge, hpc]
    rw [hedge] at h
    rw [Steady, hpc] at hsteady
    have hsteady : ∃ b, clk = World.readings s.now b ∧
        (b = s.now ∨ (b = s.now + 1 ∧ s.currProcess.isSome)) := hsteady
    rw [hnow] at hsteady
    have hdec : (s₁.contextSwitchUntil = -1 ∧ Timekept s.lastTick s₁) ∨
        (s₁.contextSwitchUntil = s.lastTick + 1 ∧ s₁.currProcess.isSome ∧
          Timekept (s.lastTick + 1) s₁) := by
      rcases hd with ⟨-, hd⟩ | ⟨-, rfl⟩
      · exact hd.timekept h hpos hopen hp.pid hsteady
      · exact Or.inl ⟨hopen, h⟩
    have hframe : s₁.now = s.now ∧ s₁.lastTick = s.lastTick ∧ s₁.sem = s.sem := by
      rcases hd with ⟨-, hd⟩ | ⟨-, rfl⟩
      · obtain ⟨m, r, b, n, t, u, k, rt, log, ch, c, rfl⟩ := hd.frame
        exact ⟨rfl, rfl, rfl⟩
      · exact ⟨rfl, rfl, rfl⟩
    refine Timekept.permit (s := { s₁ with toMem := m, lastPrint := print, clears := cl })
      (E := s.lastTick) ?_ hpos (hframe.1.trans hnow) hframe.2.1 (hframe.2.2.trans (hp.sem_algo hpc)) rfl
    have hclear : ∀ {E}, Timekept E s₁ →
        Timekept E { s₁ with toMem := m, lastPrint := print, clears := cl } :=
      fun {E} h₁ => h₁.goto hm rfl rfl rfl rfl rfl (List.append_nil _).symm
        (List.forall_mem_nil _) le_rfl le_rfl fun hs => ⟨rfl, h₁.spaced.switch hs⟩
    rcases hdec with ⟨hcsu, h₁⟩ | ⟨hcsu, hs, h₁⟩
    · exact Or.inl ⟨hcsu, hclear h₁⟩
    · refine Or.inr ⟨hcsu, ?_, hclear h₁⟩
      show m.currProcess.isSome
      rw [hm.cur]
      exact hs
  | @lastScan s₁ hpc hu =>
    obtain ⟨m, u, b, n, hm, -, rfl⟩ := hu
    have hedge : RRState.edge { s with
        toMem := m, readyQueue := s.readyQueue ++ u, blockQueue := b, pc := .top } = s.edge := by
      rw [edge, edge, hpc]
    show Timekept (RRState.edge { s with
      toMem := m, readyQueue := s.readyQueue ++ u, blockQueue := b, pc := .top }) _
    rw [hedge]
    exact h.goto hm rfl rfl rfl rfl rfl (List.append_nil _).symm
      (List.forall_mem_nil _) le_rfl le_rfl fun hs => ⟨rfl, h.spaced.switch hs⟩

/-! ### Whose ticks they are -/

/-- What a turn does to the history of the processes. -/
theorem Turn.finished (ht : Turn K P clk s s') : s'.executed = s.executed ∧
    (s'.finished = s.finished ∨ ∃ p, s.currProcess = some p ∧ s'.finished = s.finished ++ [p] ∧
      ∀ c, s.child p = some c → c.exited = true) := by
  cases ht with
  | serve hpc hcur hs =>
    obtain ⟨rq, mq, hf⟩ := fetched_eq clk s
    rw [hf] at hs
    cases hs <;> exact ⟨rfl, Or.inl rfl⟩
  | firstScan hpc hu =>
    obtain ⟨m, u, b, n, hm, -, rfl⟩ := hu
    exact ⟨rfl, Or.inl rfl⟩
  | lastScan hpc hu =>
    obtain ⟨m, u, b, n, hm, -, rfl⟩ := hu
    exact ⟨rfl, Or.inl rfl⟩
  | reap hpc hcur hx hwait hr => exact ⟨rfl, Or.inr ⟨_, hcur, rfl, hwait⟩⟩
  | @algo s₁ m print cl hpc hd hm _ =>
    have hframe : s₁.executed = s.executed ∧ s₁.finished = s.finished := by
      rcases hd with ⟨-, hd⟩ | ⟨-, rfl⟩
      · obtain ⟨m, r, b, n, t, u, k, rt, log, ch, c, rfl⟩ := hd.frame
        exact ⟨rfl, rfl⟩
      · exact ⟨rfl, rfl⟩
    rw [permit]
    split_ifs <;> exact ⟨hframe.1, Or.inl hframe.2⟩
  | _ => exact ⟨rfl, Or.inl rfl⟩

/-- **The PCB of a process is that of its message**, and a finished process has executed
for its runtime. -/
structure Origin (s : RRState) : Prop where
  pcb : ForallHeap (fun q x => ∃ d, s.admitted[q]? = some d ∧ x.arrival = d.arrival ∧
    x.runtime = d.runtime) s.toMem
  done : ∀ p ∈ s.finished, ∃ d, s.admitted[p]? = some d ∧ ticksOf s.executed p = d.runtime

theorem Turn.origin (ht : Turn K P clk s s') (h : Origin s) (hk : Timekept E s) (hp : Paced s)
    (hw : s.toMem.Wf) : Origin s' := by
  obtain ⟨l, hl, hnew⟩ : ∃ l, s'.admitted = s.admitted ++ l ∧ ∀ d,
      MsgQueue.rcv ProcessData.mtype (-5) s.msgq = some (d, s'.msgq) → d.mtype = 1 → l = [d] := by
    rcases ht.admitted with ⟨hadm, hno⟩ | ⟨d, hrcv, -, hadm⟩
    · exact ⟨[], by rw [hadm, List.append_nil], fun d hd h1 => absurd h1 (hno d hd)⟩
    · refine ⟨[d], hadm, fun d' hd' _ => ?_⟩
      rw [hrcv] at hd'
      rw [(Prod.mk.inj (Option.some.inj hd')).1]
  have hold : ∀ {q : Ptr} {d}, s.admitted[q]? = some d → s'.admitted[q]? = some d := by
    intro q d hd
    rw [hl]
    exact List.getElem?_append_left (List.getElem?_eq_some_iff.mp hd).1 ▸ hd
  refine ⟨?_, fun p hp' => ?_⟩
  · refine ht.forall_heap (fun q x y hc hx => ?_) (fun q x r hx => hx) (fun _ q x hx => ?_)
      (fun d hrcv h1 => ?_) fun q x hx => ?_
    · obtain ⟨-, ha, hr, -⟩ := core_eq hc
      rw [ha, hr]
      exact hx
    · obtain ⟨-, ha, hr⟩ := dispatched_eq clk q x
      rw [ha, hr]
      exact hx
    · refine ⟨d, ?_, rfl, rfl⟩
      rw [hl, hnew d hrcv h1, hk.totals.size, List.getElem?_concat_length]
    · obtain ⟨d, hd, hx⟩ := h.pcb q x hx
      exact ⟨d, hold hd, hx⟩
  · obtain ⟨hex, hfin⟩ := ht.finished
    rw [hex]
    have hbefore : p ∈ s.finished → _ := h.done p
    rcases hfin with hfin | ⟨q, hq, hfin, hexit⟩
    · obtain ⟨d, hd, hticks⟩ := h.done p (hfin ▸ hp')
      exact ⟨d, hold hd, hticks⟩
    · rw [hfin] at hp'
      rcases List.mem_append.mp hp' with hp' | hp'
      · obtain ⟨d, hd, hticks⟩ := h.done p hp'
        exact ⟨d, hold hd, hticks⟩
      · obtain rfl := List.mem_singleton.mp hp'
        obtain ⟨x, hx⟩ := hw.alloc (hw.cur hq)
        obtain ⟨d, hd, -, hr⟩ := h.pcb p x hx
        obtain ⟨c, hact⟩ := hp.active p hq
        have htotal := (hk.charged p x hq hx).total
        rw [hact.shared, hact.exited (hexit c hact.child), add_zero, hr] at htotal
        exact ⟨d, hold hd, htotal⟩

/-! ### The moves of the children -/

/-- **A child keeps the accounts**: it executes at the edge of the turn. -/
theorem childStep_timekept (hst : s.childStep p = some s') (h : Timekept s.edge s) (hp : Paced s)
    (hs : Started s) (hcust : s.Custody [] s.currProcess.toList) (ho : Origin s) :
    Timekept s'.edge s' ∧ Origin s' := by
  obtain ⟨c, hc, hgo, hex, hmove⟩ := childStep_cases hst
  have hcur : s.currProcess = some p := childStep_running hst hs hp
  obtain ⟨c', hact⟩ := hp.active p hcur
  obtain rfl := Option.some.inj (hc.symm.trans hact.child)
  rcases hmove with ⟨-, rfl⟩ | ⟨hpos, hsem, rfl⟩
  · refine ⟨?_, ho.pcb, ho.done⟩
    have hedge : (s.childExit p c).edge = s.edge := rfl
    rw [hedge]
    exact h.goto (SameCore.refl _) rfl rfl rfl rfl rfl (List.append_nil _).symm
      (List.forall_mem_nil _) le_rfl le_rfl fun hs => ⟨rfl, h.spaced.switch hs⟩
  · have hone : s.sem = 1 := le_antisymm hact.one hsem
    have hperm := hact.permit
    have hmem : p ∈ s.currentPCBs := hcust.wf.cur hcur
    have hnew : p ∉ s.finished := by
      have hn : (s.received : Multiset Ptr).Nodup := Multiset.coe_nodup.mpr hcust.once
      rw [hcust.history, Multiset.nodup_add] at hn
      exact fun hf => Multiset.disjoint_left.mp hn.2.2 (Multiset.mem_coe.mpr hf)
        (Multiset.mem_coe.mpr hmem)
    obtain ⟨x, hx⟩ := hcust.wf.alloc hmem
    have hlt : p < s.brk := by
      by_contra hge
      exact nomatch (hcust.fresh p (not_lt.mp hge)).symm.trans hx
    -- a permit is there at the end of a turn only
    have hedge : s.edge = s.lastTick ∧ (s.childTick p c).edge = s.lastTick + 1 := by
      have hsem' : (s.childTick p c).sem = 0 := by
        show s.sem - 1 = 0
        omega
      have hpc' : (s.childTick p c).pc = s.pc := rfl
      have hl' : (s.childTick p c).lastTick = s.lastTick := rfl
      rw [edge, edge, hpc', hsem', hl']
      cases hpc : s.pc <;> rw [hpc] at hperm
      case requests | blockEnd | finish | reap | gate | receive | algo =>
        exact absurd hperm.1 (by omega)
      all_goals exact ⟨by rw [hone]; push_cast; omega, by push_cast; omega⟩
    rw [hedge.1] at h
    rw [hedge.2]
    refine ⟨h.tick hcur hact.shared rfl hnew hlt, ho.pcb, fun q hq => ?_⟩
    obtain ⟨d, hd, hticks⟩ := ho.done q hq
    refine ⟨d, hd, ?_⟩
    have hne : q ≠ p := by
      rintro rfl
      exact hnew hq
    show ticksOf (s.executed ++ [(p, s.lastTick)]) q = d.runtime
    rw [ticksOf_append_of_ne _ hne, hticks]

/-- **The accounts of a run.** -/
structure Accounted (s : RRState) : Prop where
  /-- The ticks a process has executed and those that remain are its runtime. -/
  running : ∀ p x, s.currProcess = some p → s.heap p = some x →
    ticksOf s.executed p + s.shmRT = x.runtime
  others : ∀ p x, s.currProcess ≠ some p → s.heap p = some x →
    ticksOf s.executed p + x.remainingTime = x.runtime
  finished : ∀ p ∈ s.finished, ∃ d, s.admitted[p]? = some d ∧ ticksOf s.executed p = d.runtime
  /-- There is a line for each finished process, with nothing remaining, and its turnaround
  time is its waiting time and its runtime. -/
  logged : (s.schedulerLog.countP fun r => r.lState = .finish) = s.finished.length ∧
    ∀ r ∈ s.schedulerLog, r.lState = .finish →
      r.remaining = 0 ∧ r.time - r.arrival = r.waiting + r.runtime
  /-- No two processes execute at one tick, and there is a tick between two processes. -/
  segments : s.executed.Pairwise fun a b => a.2 < b.2 ∧ (a.1 ≠ b.1 → a.2 + 2 ≤ b.2)
  /-- The processor is busy for no longer than there has been something to do. -/
  utilization : s.finished ≠ [] → ∀ d, s.admitted.head? = some d → d.arrival ≠ -1 →
    s.perf.totalRuntime ≤ s.perf.finishTime - s.perf.firstArrival

theorem Timekept.accounted (h : Timekept E s) (ho : Origin s) : Accounted s where
  running p x hp hx := (h.charged p x hp hx).total
  others p x hp hx := (h.balanced p x hx hp).total
  finished := ho.done
  logged := ⟨h.logged.count, h.logged.lines⟩
  segments := h.spaced.segments
  utilization hfin d hd hne := by
    have hle := h.totals.finish hfin d hd
    rw [h.totals.first d hd hne]
    omega

end RRState

namespace World

open RRState

variable {P : Params} {adm : ProcessData → Prop} {C : World → Event → Prop} {w w' : World}
  {e : Event}

/-! ### The runs -/

/-- The scheduler makes one turn for each value of the clock. -/
def InStep (w : World) : Event → Prop
  | .sched clk _ => Steady clk w.rr
  | _ => True

/-- What has been sent has arrived. -/
structure Arrived (w : World) : Prop where
  clock : 0 ≤ w.clock
  msgq : ∀ d ∈ w.rr.msgq, d.mtype = 1 → d.arrival ≤ w.clock
  current : ∀ t, w.gen.current = some t → t ≤ w.clock

theorem Step.arrived (hst : Step P e w w') (hi : Inv (fun _ => True) (fun _ => True) w)
    (h : Arrived w) : Arrived w' := by
  cases hst with
  | @sched _ clk s t hclk hs =>
    have hle := hclk.1
    refine ⟨le_trans h.clock hle, fun d hd h1 => ?_, fun u hu => le_trans (h.current u hu) hle⟩
    have hmem : d ∈ w.rr.msgq := by
      rcases (hi.turn hs).msgq with he | ⟨d', hrcv⟩
      · exact he ▸ hd
      · exact (MsgQueue.perm_of_rcv hrcv).mem_iff.mpr (List.mem_cons_of_mem _ hd)
    exact le_trans (h.msgq d hmem h1) hle
  | child hs =>
    obtain ⟨c, -, -, -, ⟨-, rfl⟩ | ⟨-, -, rfl⟩⟩ := childStep_cases hs <;>
      exact ⟨h.clock, h.msgq, h.current⟩
  | @observe _ t hq hcur ht =>
    refine ⟨le_trans h.clock ht, fun d hd h1 => le_trans (h.msgq d hd h1) ht, fun u hu => ?_⟩
    have hu : (if t = w.gen.lastTime then none else some t) = some u := hu
    split_ifs at hu
    exact (Option.some.inj hu).symm.le
  | @send _ t d q hcur hq hdue =>
    refine ⟨h.clock, fun d' hd h1 => ?_, h.current⟩
    rcases List.mem_append.mp hd with hd | hd
    · exact h.msgq d' hd h1
    · obtain rfl := List.mem_singleton.mp hd
      exact le_trans hdue (h.current t hcur)
  | @sync _ t hcur hq =>
    refine ⟨h.clock, fun d' hd h1 => ?_, fun u hu => nomatch hu⟩
    rcases List.mem_append.mp hd with hd | hd
    · exact h.msgq d' hd h1
    · obtain rfl := List.mem_singleton.mp hd
      exact absurd (show (2 : ℤ) = 1 from h1) (by decide)
  | last hq hcur hdone =>
    refine ⟨h.clock, fun d' hd h1 => ?_, h.current⟩
    rcases List.mem_append.mp hd with hd | hd
    · exact h.msgq d' hd h1
    · obtain rfl := List.mem_singleton.mp hd
      exact absurd h1 (by decide)

theorem reachable_arrived (h : (system P).Reachable w) : Arrived w := by
  refine h.invariant_of (J := Inv (fun _ => True) fun _ => True) (P := Arrived)
    (fun _ => reachable_inv) ?_ ?_
  · rintro w ⟨l, t, -, -, ht, rfl⟩
    exact ⟨ht, List.forall_mem_nil _, fun t ht => nomatch ht⟩
  · rintro w w' hi h ⟨e, hst⟩
    exact hst.arrived hi h

theorem reachable_clocked (h : (system P).Reachable w) : Clocked w.rr := by
  refine h.invariant_of (J := fun w => Inv (fun _ => True) (fun _ => True) w ∧ Arrived w)
    (P := fun w => Clocked w.rr) (fun w hw => ⟨reachable_inv hw, reachable_arrived hw⟩) ?_ ?_
  · rintro w ⟨l, t, -, -, -, rfl⟩
    exact ⟨fun hne => absurd rfl hne, (fun hs => nomatch hs), fun hg => nomatch hg⟩
  · rintro w w' ⟨hi, ha⟩ h ⟨e, hst⟩
    cases hst with
    | sched hclk hs => exact (hi.turn hs).clocked h (le_trans ha.clock (hclk.2 .now).1)
    | child hs =>
      obtain ⟨c, -, -, -, ⟨-, rfl⟩ | ⟨-, -, rfl⟩⟩ := childStep_cases hs <;>
        exact ⟨h.now, h.begun, h.gate⟩
    | _ => exact ⟨h.now, h.begun, h.gate⟩

/-- **Time is kept** in every state of every run with prompt children that is steady and
in which no request of a last tick misses. -/
theorem reachable_timekept (hC : ∀ w e, C w e → (Prompt w e ∧ InTime w e) ∧ InStep w e)
    (h : (systemIf P adm C).Reachable w) : Timekept w.rr.edge w.rr ∧ Origin w.rr := by
  have hsys : ∀ {w}, (systemIf P adm C).Reachable w → (system P).Reachable w := fun hw =>
    reachable_mono (fun _ _ => trivial) (reachable_of_if hw)
  refine h.invariant_of (J := fun w => (systemIf P adm C).Reachable w ∧ Paced w.rr)
    (P := fun w => Timekept w.rr.edge w.rr ∧ Origin w.rr)
    (fun w hw => ⟨hw, reachable_paced (fun w e hc => (hC w e hc).1) hw⟩) ?_ ?_
  · rintro w ⟨l, t, -, -, -, rfl⟩
    refine ⟨⟨(fun q x hx => nomatch hx), (fun p x hp => nomatch hp), ⟨List.Pairwise.nil,
      List.forall_mem_nil _, List.forall_mem_nil _, (fun hs => nomatch hs)⟩, ⟨rfl,
      List.forall_mem_nil _, List.forall_mem_nil _, (fun d hd => nomatch hd), fun _ => rfl,
      (fun d hd => nomatch hd), rfl, fun hne => absurd rfl hne⟩, ⟨List.forall_mem_nil _, rfl⟩⟩,
      (fun q x hx => nomatch hx), List.forall_mem_nil _⟩
  · rintro w w' ⟨hw, hp⟩ ⟨h, ho⟩ ⟨e, hst, hc⟩
    obtain ⟨hprompt, hstep⟩ := hC w e hc
    have hi := reachable_inv (hsys hw)
    have hask := reachable_asked (hsys hw)
    have harr := reachable_arrived (hsys hw)
    have hcl := reachable_clocked (hsys hw)
    have hp' : Paced w'.rr := hst.paced hprompt.1 hprompt.2 hi hask.toStarted hp
    cases hst with
    | @sched _ clk s t hclk hs =>
      have ht := hi.turn hs
      refine ⟨ht.timekept h hp hp' hcl hi.held.toCustody (le_trans harr.clock (hclk.2 .now).1) hstep
        fun hpc d hd h1 => ?_, ht.origin ho h hp hi.held.wf⟩
      -- the clock shows the tick of the turn when the process is received
      have hread : ∀ x, clk x = w.rr.now := by
        have hstep : Steady clk w.rr := hstep
        rw [Steady, hpc] at hstep
        exact hstep
      have hnow := (hcl.now (by rw [hpc]; exact nofun) (by rw [hpc]; exact nofun)).1
      have := harr.msgq d hd h1
      have := (hclk.2 .now).1
      have := hread .now
      omega
    | child hs => exact childStep_timekept hs h hp hask.toStarted hi.held.toCustody ho
    | _ =>
      exact ⟨⟨h.balanced, h.charged, ⟨h.spaced.segments, h.spaced.past, h.spaced.others,
        h.spaced.switch⟩, ⟨h.totals.size, h.totals.known, h.totals.ended, h.totals.busy,
        h.totals.unset, h.totals.first, h.totals.total, h.totals.finish⟩, ⟨h.logged.lines,
        h.logged.count⟩⟩, ho.pcb, ho.done⟩

/-- The runs with prompt children, one turn for each value of the clock, in which no request
of a last tick misses. -/
def steady (P : Params) : TransitionSystem World :=
  systemIf P (fun _ => True) fun w e => (Prompt w e ∧ InTime w e) ∧ InStep w e

/-- **The accounts agree** in every state of every steady run. -/
theorem reachable_accounted (h : (steady P).Reachable w) : Accounted w.rr := by
  obtain ⟨hk, ho⟩ := reachable_timekept (fun _ _ hc => hc) h
  exact hk.accounted ho

/-! ### Two explicit runs -/

/-- The check of an explicit run: its turns are steady. -/
def inStepCheck (w : World) : Move → Bool
  | .sched a b =>
    match w.rr.pc with
    | .top => a = w.rr.lastTick || a = w.rr.lastTick + 1 || w.rr.lastTick = -1
    | .algo => a = w.rr.now && (b = w.rr.now || (b = w.rr.now + 1 && w.rr.currProcess.isSome))
    | .last | .exited => true
    | _ => a = w.rr.now && b = w.rr.now
  | _ => true

theorem inStep_of_check {mv : Move} (h : inStepCheck w mv = true) : InStep w mv.event := by
  cases mv with
  | sched a b =>
    show Steady (readings a b) w.rr
    have hall : decide (a = w.rr.now) && decide (b = w.rr.now) →
        ∀ x, readings a b x = w.rr.now := by
      intro hab x
      simp only [Bool.and_eq_true, decide_eq_true_eq] at hab
      unfold readings
      split_ifs
      · exact hab.2
      · exact hab.1
    simp only [inStepCheck] at h
    rw [Steady]
    cases hpc : w.rr.pc <;> rw [hpc] at h
    case top => simpa [readings, afterWait, or_assoc] using h
    case algo =>
      simp only [Bool.and_eq_true, Bool.or_eq_true, decide_eq_true_eq] at h
      obtain ⟨rfl, hb⟩ := h
      exact ⟨b, rfl, hb⟩
    case last | exited => trivial
    all_goals exact hall h
  | _ => trivial

/-- The run of a process that finishes, up to the next turn. -/
def finishRun : List Move := shortRun ++ List.replicate 5 (.sched 2 2)

/-- Two of three processes have finished, one of them after a fault. -/
theorem reachable_accounted_resumed :
    ∃ w, playIf threeParams (fun w mv => punctualCheck w mv && inStepCheck w mv)
        (start threeAtOnce 1) resumedRun = some w ∧
      w.rr.finished = [2, 0] ∧ w.rr.perf.totalRuntime = 3 ∧ w.rr.readyQueue = [1] ∧
      Accounted w.rr := by
  have hrun : (playIf threeParams (fun w mv => punctualCheck w mv && inStepCheck w mv)
      (start threeAtOnce 1) resumedRun).map (fun w => (w.rr.finished, w.rr.perf.totalRuntime,
        w.rr.readyQueue)) = some ([2, 0], 3, [1]) := by
    decide +kernel
  obtain ⟨w, hw, he⟩ := Option.map_eq_some_iff.mp hrun
  simp only [Prod.mk.injEq] at he
  obtain ⟨hfin, htotal, hready⟩ := he
  have hstart : (steady threeParams).Reachable (start threeAtOnce 1) :=
    .init ⟨_, 1, workload_threeAtOnce, fun _ _ => trivial, by decide, rfl⟩
  refine ⟨w, hw, hfin, htotal, hready,
    reachable_accounted (playIf_reachable (fun w e hr hc => ?_) hstart hw)⟩
  obtain ⟨hpunctual, hstep⟩ := Bool.and_eq_true_iff.mp hc
  exact ⟨punctual_of_check hr hpunctual, inStep_of_check hstep⟩

/-- A process whose arrival is `-1`, which is also the value of an unset `first_arrival`,
and one that arrives at tick 3. -/
def earlyAndLate : List ProcessData :=
  [{ shortProcess with arrival := -1 }, { shortProcess with id := 8, arrival := 3 }]

/-- The first process executes at tick 1, the second one at tick 3. -/
def earlyRun : List Move := finishRun ++ List.flatten
  [[.observe 3, .send, .sync], List.replicate 9 (.sched 3 3), [.child 1, .child 1],
    List.replicate 7 (.sched 4 4)]

/-- **With an arrival of `-1`** the first arrival is taken from another process, and the
processor has been busy for longer than there has been something to do. -/
theorem not_accounted_early :
    ¬∀ (P : Params) (w : World), (steady P).Reachable w → w.rr.finished ≠ [] →
      w.rr.perf.totalRuntime ≤ w.rr.perf.finishTime - w.rr.perf.firstArrival := by
  intro hall
  have hrun : (playIf (quietParams 2) (fun w mv => punctualCheck w mv && inStepCheck w mv)
      (start earlyAndLate 1) earlyRun).map (fun w => (w.rr.finished, w.rr.perf.totalRuntime,
        w.rr.perf.finishTime, w.rr.perf.firstArrival)) = some ([0, 1], 2, 4, 3) := by
    decide +kernel
  obtain ⟨w, hw, he⟩ := Option.map_eq_some_iff.mp hrun
  simp only [Prod.mk.injEq] at he
  obtain ⟨hfin, htotal, hfinish, hfirst⟩ := he
  have hstart : (steady (quietParams 2)).Reachable (start earlyAndLate 1) := by
    refine .init ⟨earlyAndLate, 1, ⟨?_, ?_, ?_⟩, fun _ _ => trivial, by decide, rfl⟩ <;> decide
  have hreach := playIf_reachable (fun w e hr hc => ?_) hstart hw
  · have hle := hall _ w hreach (by rw [hfin]; exact List.cons_ne_nil _ _)
    rw [htotal, hfinish, hfirst] at hle
    omega
  · obtain ⟨hpunctual, hstep⟩ := Bool.and_eq_true_iff.mp hc
    exact ⟨punctual_of_check hr hpunctual, inStep_of_check hstep⟩

end World

end CpuScheduler
