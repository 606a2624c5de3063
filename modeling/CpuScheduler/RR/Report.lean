import CpuScheduler.RR.Statistics
import CpuScheduler.RR.Timeline

/-!
# The report

When the loop is left, `write_perf` prints a report. What it prints has been added up by
`handleFinishedProcesses`, one process at a time; `scheduler.log` tells of the same processes line
by line. In every run the two agree (`CpuScheduler.RRState.Reports`).

In a steady run the lines are right about the times, and so the report can be checked against the
workload and the times of the finishes alone (`CpuScheduler.RRState.Truthful`,
`CpuScheduler.World.exited_report`).
-/

namespace CpuScheduler

open Average

/-- How long a process has been in the system at the time of a line. -/
def LogLine.turnaround (r : LogLine) : ℤ := r.time - r.arrival

/-- The process that a line is about. -/
def LogLine.process (r : LogLine) : ℤ × ℤ × ℤ := (r.id, r.arrival, r.runtime)

/-- What the lines about a process repeat. -/
def ProcessData.process (d : ProcessData) : ℤ × ℤ × ℤ := (d.id, d.arrival, d.runtime)

namespace RRState

/-- **The figures are those of the lines**, and the lines those of the processes that have
finished. -/
structure Reports (s : RRState) : Prop where
  lines : List.Forall₂ (fun r p => s.admitted[p]?.map ProcessData.process = some r.process)
    (finishLines s.schedulerLog) s.finished
  turnaround : ∀ r ∈ finishLines s.schedulerLog, r.ta = some r.turnaround
  waiting : s.perf.avgWaiting =
    ((finishLines s.schedulerLog).map fun r => (r.waiting : ℚ)).sum
  total : s.perf.totalRuntime = ((finishLines s.schedulerLog).map LogLine.runtime).sum
  finish : ∀ r, (finishLines s.schedulerLog).getLast? = some r → s.perf.finishTime = r.time

/-- **The report is right** about the processes of `l`, whose last lines are these: nothing
remains of a process, it has waited whenever it has not executed, and the averages are taken over
all of them. -/
structure Truthful {R : Type} (sqrtf : ℚ → R) (l : List ProcessData) (lines : List LogLine)
    (out : PerfLines R) : Prop where
  processes : (lines.map LogLine.process).Perm (l.map ProcessData.process)
  done : ∀ r ∈ lines, r.remaining = 0 ∧ r.waiting = r.turnaround - r.runtime
  avgWTA : out.avgWTA = average (lines.map fun r => (r.turnaround : ℚ) / r.runtime)
  stdWTA : out.stdWTA =
    sqrtf (deviation (lines.map fun r => (r.turnaround : ℚ) / r.runtime) / lines.length)
  avgWaiting : out.avgWaiting =
    average (lines.map fun r => ((r.turnaround - r.runtime : ℤ) : ℚ))
  /-- The processor has been busy for as long as the processes take, from the first arrival to the
  last finish. -/
  cpuUtil : ∀ d r, l.head? = some d → lines.getLast? = some r →
    out.cpuUtil = ((l.map ProcessData.runtime).sum : ℤ) * 100 / (r.time - d.arrival : ℤ)
  busy : 0 < out.cpuUtil ∧ out.cpuUtil ≤ 100

variable {K : Mem → Prop} {P : Params} {clk : Clk} {s s' : RRState} {x : PCB} {p : Ptr}

/-! ### A turn -/

theorem time_finish (x : PCB) (remaining t : ℤ) : (lineOf (x.finish remaining t) t).time = t := by
  simp only [lineOf, PCB.finish]
  split_ifs <;> rfl

/-- The receiving leaves these figures alone. -/
theorem firstArrivalOf_frame (perf : PerfVars) (d : ProcessData) :
    (firstArrivalOf perf d).avgWaiting = perf.avgWaiting ∧
    (firstArrivalOf perf d).totalRuntime = perf.totalRuntime ∧
    (firstArrivalOf perf d).finishTime = perf.finishTime := by
  rw [firstArrivalOf]
  split_ifs <;> exact ⟨rfl, rfl, rfl⟩

/-- Nothing finishes. -/
theorem Reports.of_eq (h : Reports s)
    (hlog : finishLines s'.schedulerLog = finishLines s.schedulerLog)
    (hperf : s'.perf.avgWaiting = s.perf.avgWaiting ∧
      s'.perf.totalRuntime = s.perf.totalRuntime ∧ s'.perf.finishTime = s.perf.finishTime)
    (hfin : s'.finished = s.finished)
    (hadm : ∃ l, s'.admitted = s.admitted ++ l) : Reports s' := by
  obtain ⟨hwaiting, htotal, hfinish⟩ := hperf
  obtain ⟨l, hadm⟩ := hadm
  refine ⟨?_, hlog ▸ h.turnaround, ?_, ?_, fun r hr => ?_⟩
  · rw [hlog, hfin]
    refine h.lines.imp fun r p hr => ?_
    obtain ⟨d, hd, -⟩ := Option.map_eq_some_iff.mp hr
    rw [hadm, List.getElem?_append_left (List.getElem?_eq_some_iff.mp hd).1, hr]
  · rw [hwaiting, hlog, h.waiting]
  · rw [htotal, hlog, h.total]
  · rw [hfinish, h.finish r (hlog ▸ hr)]

/-- **A process is let go of**: its line is the last one, and is added to the figures. -/
theorem Reports.reap (h : Reports s) (he : Entered s) (hx : s.heap p = some x)
    {remaining t : ℤ} (hlog : s'.schedulerLog = s.schedulerLog ++
      [lineOf (x.finish remaining t) t])
    (hperf : s'.perf = perfOf s.perf (x.finish remaining t) t)
    (hfin : s'.finished = s.finished ++ [p]) (hadm : s'.admitted = s.admitted) : Reports s' := by
  have hlines := finishLines_finish s.schedulerLog x remaining t
  rw [← hlog] at hlines
  refine ⟨?_, ?_, ?_, ?_, ?_⟩
  · rw [hlines, hfin, hadm]
    refine List.rel_append h.lines (List.Forall₂.cons ?_ List.Forall₂.nil)
    obtain ⟨d, hd, hid, harrival, hruntime⟩ := he.pcb p x hx
    rw [hd, Option.map_some, ProcessData.process, ← hid, ← harrival, ← hruntime]
    rfl
  · intro r hr
    rw [hlines] at hr
    rcases List.mem_append.mp hr with hr | hr
    · exact h.turnaround r hr
    · obtain rfl := List.mem_singleton.mp hr
      rw [LogLine.turnaround, time_finish]
      rfl
  · rw [hperf, hlines, List.map_append, List.sum_append, ← h.waiting, List.map_singleton,
      List.sum_singleton]
    rfl
  · rw [hperf, hlines, List.map_append, List.sum_append, ← h.total, List.map_singleton,
      List.sum_singleton]
    rfl
  · intro r hr
    rw [hlines, List.getLast?_concat] at hr
    rw [hperf, ← Option.some.inj hr, time_finish]
    rfl

theorem Turn.reports (ht : Turn K P clk s s') (he : Entered s) (h : Reports s) : Reports s' := by
  cases ht with
  | reap hpc hcur hx hwait hr => exact h.reap he hx rfl rfl rfl rfl
  | @arrive d rest hpc hrcv hd =>
    exact h.of_eq rfl (firstArrivalOf_frame s.perf d) rfl ⟨[d], rfl⟩
  | @serve s₁ hpc hcur hs =>
    obtain ⟨ls, hlog, hls⟩ := hs.log
    obtain ⟨rq, mq, hfetch⟩ := s.fetched_eq clk
    have hframe : s₁.perf = (s.fetched clk).perf ∧ s₁.finished = (s.fetched clk).finished ∧
        s₁.admitted = (s.fetched clk).admitted := by
      cases hs <;> exact ⟨rfl, rfl, rfl⟩
    rw [hfetch] at hframe
    obtain ⟨hperf, hfin, hadm⟩ := hframe
    refine h.of_eq ?_ ?_ hfin ⟨[], hadm.trans (List.append_nil _).symm⟩
    · show finishLines s₁.schedulerLog = _
      rw [hlog, finishLines_append hls, hfetch]
    · show s₁.perf.avgWaiting = _ ∧ s₁.perf.totalRuntime = _ ∧ s₁.perf.finishTime = _
      rw [hperf]
      exact ⟨rfl, rfl, rfl⟩
  | firstScan hpc hu | lastScan hpc hu =>
    obtain ⟨m, u, b, n, -, -, rfl⟩ := hu
    exact h.of_eq rfl ⟨rfl, rfl, rfl⟩ rfl ⟨[], (List.append_nil _).symm⟩
  | @algo s₁ m print cl hpc hd hm hclear =>
    have h₁ : Reports s₁ := by
      rcases hd with ⟨-, hd⟩ | ⟨-, rfl⟩
      · obtain ⟨ls, hlog, hls⟩ := hd.log
        obtain ⟨_, _, _, _, _, _, _, _, _, _, _, rfl⟩ := hd.frame
        refine h.of_eq ?_ ⟨rfl, rfl, rfl⟩ rfl ⟨[], (List.append_nil _).symm⟩
        rw [hlog, finishLines_append hls]
      · exact h
    rw [permit]
    split_ifs <;> exact h₁.of_eq rfl ⟨rfl, rfl, rfl⟩ rfl ⟨[], (List.append_nil _).symm⟩
  | _ => exact h.of_eq rfl ⟨rfl, rfl, rfl⟩ rfl ⟨[], (List.append_nil _).symm⟩

/-! ### The report -/

/-- The weighted turnaround times, from the times of the lines. -/
theorem Reports.wtas (h : Reports s) : loggedWTAs s.schedulerLog =
    (finishLines s.schedulerLog).map fun r => (r.turnaround : ℚ) / r.runtime := by
  rw [loggedWTAs_eq]
  refine List.map_congr_left fun r hr => ?_
  rw [LogLine.wta, h.turnaround r hr]
  rfl

theorem Logged.done (h : Logged s) : ∀ r ∈ finishLines s.schedulerLog,
    r.remaining = 0 ∧ r.waiting = r.turnaround - r.runtime := by
  intro r hr
  obtain ⟨hr, hst⟩ := List.mem_filter.mp hr
  obtain ⟨hremaining, htime⟩ := h.lines r hr (of_decide_eq_true hst)
  exact ⟨hremaining, by rw [LogLine.turnaround]; omega⟩

/-- The waiting times, from the times of the lines. -/
theorem Reports.waitings (h : Reports s) (hl : Logged s) : s.perf.avgWaiting =
    ((finishLines s.schedulerLog).map fun r => ((r.turnaround - r.runtime : ℤ) : ℚ)).sum := by
  rw [h.waiting]
  refine congrArg List.sum (List.map_congr_left fun r hr => ?_)
  rw [(hl.done r hr).2]

/-- The total, from the workload. -/
theorem Reports.runtimes (h : Reports s) {l : List ProcessData}
    (hl : ((finishLines s.schedulerLog).map LogLine.process).Perm
      (l.map ProcessData.process)) :
    s.perf.totalRuntime = (l.map ProcessData.runtime).sum := by
  have hperm := hl.map fun e => e.2.2
  rw [List.map_map, List.map_map] at hperm
  exact h.total.trans hperm.sum_eq

end RRState

namespace World

open RRState

variable {P : Params} {w : World}

/-- **The figures and the log agree** in every state of every run. -/
theorem reachable_reports (h : (system P).Reachable w) : Reports w.rr := by
  refine h.invariant_of (J := (system P).Reachable) (P := fun w => Reports w.rr)
    (fun _ hw => hw) ?_ ?_
  · rintro w ⟨l, t, -, -, -, rfl⟩
    refine ⟨List.Forall₂.nil, List.forall_mem_nil _, rfl, rfl, fun r hr => ?_⟩
    exact absurd hr (by rintro ⟨⟩)
  · rintro w w' hw h ⟨e, hst⟩
    have hentered := (reachable_registered hw).entered
    cases hst with
    | sched hclk hs => exact ((reachable_inv hw).turn hs).reports hentered h
    | child hch =>
      obtain ⟨c, -, -, -, ⟨-, rfl⟩ | ⟨-, -, rfl⟩⟩ := childStep_cases hch <;>
        exact h.of_eq rfl ⟨rfl, rfl, rfl⟩ rfl ⟨[], (List.append_nil _).symm⟩
    | _ => exact h.of_eq rfl ⟨rfl, rfl, rfl⟩ rfl ⟨[], (List.append_nil _).symm⟩

/-- **When the scheduler has left its loop, there is one line for each process of the workload** to
say that it has finished. -/
theorem exited_lines (h : (system P).Reachable w) (hpc : w.rr.pc = .exited) :
    ((finishLines w.rr.schedulerLog).map LogLine.process).Perm
      (w.gen.sent.map ProcessData.process) := by
  obtain ⟨-, hadm, hfinished⟩ := exited_finished h hpc
  have hlines : (finishLines w.rr.schedulerLog).map (fun r => some r.process) =
      w.rr.finished.map fun p => w.rr.admitted[p]?.map ProcessData.process := by
    rw [← List.forall₂_eq_eq_eq, List.forall₂_map_left_iff, List.forall₂_map_right_iff]
    exact (reachable_reports h).lines.imp fun r p hr => hr.symm
  have hrange : (List.range w.rr.admitted.length).map
      (fun p => w.rr.admitted[p]?.map ProcessData.process) =
        w.gen.sent.map fun d => some d.process := by
    rw [← hadm]
    refine List.ext_getElem (by simp) fun i hi hi' => ?_
    have hlt : i < w.rr.admitted.length := by simpa using hi
    rw [List.getElem_map, List.getElem_range, List.getElem?_eq_getElem hlt, Option.map_some,
      List.getElem_map]
  have hperm := (hfinished.map fun p => w.rr.admitted[p]?.map ProcessData.process)
  rw [← hlines, hrange] at hperm
  simpa using hperm.filterMap id

/-- **The report of a steady run is right**, unless the first arrival is the value that stands for
none. -/
theorem exited_report {R : Type} [Zero R] (sqrtf : ℚ → R) (h : (steady P).Reachable w)
    (hpc : w.rr.pc = .exited) {d : ProcessData} (hd : w.gen.sent.head? = some d)
    (hne : d.arrival ≠ -1) :
    w.gen.queue = [] ∧ Truthful sqrtf w.gen.sent (finishLines w.rr.schedulerLog)
      (writePerf sqrtf w.rr.perf) := by
  have hsys : (system P).Reachable w := reachable_of_if h
  obtain ⟨hqueue, hadm, hfinished⟩ := exited_finished hsys hpc
  have hrep := reachable_reports hsys
  have hlines := exited_lines hsys hpc
  have htime := (reachable_timekept (fun _ _ hc => hc) h).1
  have hfirst : ∀ d', w.rr.admitted.head? = some d' → d'.arrival ≠ -1 := by
    intro d' hd'
    rw [hadm, hd] at hd'
    exact Option.some.inj hd' ▸ hne
  have hfin : w.rr.finished ≠ [] := by
    have hlen := hfinished.length_eq
    rw [List.length_range, hadm] at hlen
    rintro hnil
    rw [hnil, List.length_nil] at hlen
    rw [List.length_eq_zero_iff.mp hlen.symm] at hd
    simp at hd
  have hlast := firstArrival_lt_finishTime h hfin hfirst
  obtain ⟨hwta, hstd⟩ := steady_writePerf sqrtf h hfin hfirst
  rw [hrep.wtas] at hwta hstd
  rw [List.length_map] at hstd
  have hnum : w.rr.perf.numProcs = (finishLines w.rr.schedulerLog).length := by
    rw [(reachable_exact hsys).numProcs, loggedWTAs_eq, List.length_map]
  have htotal := hrep.runtimes hlines
  have harrival := htime.totals.first d (hadm ▸ hd) hne
  have hmem : d ∈ w.rr.admitted := hadm ▸ List.mem_of_head? hd
  have hpos : 0 < w.rr.perf.totalRuntime := by
    rw [htotal, ← hadm]
    refine List.sum_pos _ (fun n hn => ?_) (by simpa using List.ne_nil_of_mem hmem)
    obtain ⟨d', hd', rfl⟩ := List.mem_map.mp hn
    exact reachable_admitted_pos hsys d' hd'
  have hle : w.rr.perf.totalRuntime ≤ w.rr.perf.finishTime - w.rr.perf.firstArrival :=
    (reachable_timekept (fun _ _ hc => hc) h).elim fun hk ho =>
      (hk.accounted ho).utilization hfin d (hadm ▸ hd) hne
  have hsome : ¬(w.rr.perf.numProcs = 0 ∨ w.rr.perf.finishTime ≤ w.rr.perf.firstArrival) := by
    rintro (hzero | hle)
    · have hlen := hlines.length_eq
      rw [List.length_map, List.length_map, ← hadm] at hlen
      have := List.length_pos_of_mem hmem
      omega
    · exact hlast.not_ge hle
  have hspan : (0 : ℚ) < (w.rr.perf.finishTime - w.rr.perf.firstArrival : ℤ) := by
    exact_mod_cast sub_pos.mpr hlast
  have hprint : (writePerf sqrtf w.rr.perf).cpuUtil = w.rr.perf.totalRuntime * 100 /
      (w.rr.perf.finishTime - w.rr.perf.firstArrival : ℤ) ∧
      (writePerf sqrtf w.rr.perf).avgWaiting = w.rr.perf.avgWaiting / w.rr.perf.numProcs := by
    rw [writePerf, if_neg hsome]
    exact ⟨rfl, rfl⟩
  refine ⟨hqueue, hlines, htime.logged.done, hwta, hstd, ?_, fun d' r hd' hr => ?_, ?_, ?_⟩
  · rw [hprint.2, hrep.waitings htime.logged, hnum, average, List.length_map, Int.cast_natCast]
  · obtain rfl : d = d' := Option.some.inj (hd.symm.trans hd')
    rw [hprint.1, htotal, hrep.finish r hr, harrival]
  · rw [hprint.1]
    have : (0 : ℚ) < w.rr.perf.totalRuntime := by exact_mod_cast hpos
    positivity
  · rw [hprint.1, div_le_iff₀ hspan, mul_comm]
    have : (w.rr.perf.totalRuntime : ℚ) ≤
        (w.rr.perf.finishTime - w.rr.perf.firstArrival : ℤ) := by exact_mod_cast hle
    exact mul_le_mul_of_nonneg_left this (by norm_num)

/-- The two processes take turns until tick 8, and the loop is left at tick 9. -/
def reportRun : List Move := preemptingRun ++ List.flatten
  [List.replicate 8 (.sched 3 3), [.child 1], List.replicate 5 (.sched 4 4), [.sched 4 5],
    List.replicate 8 (.sched 5 5), [.child 0, .child 0], List.replicate 7 (.sched 6 6),
    List.replicate 7 (.sched 7 7), [.child 1, .child 1], List.replicate 7 (.sched 8 8),
    [.sched 9 9]]

/-- The first one has waited for 3 ticks, the second one for 5. -/
theorem exited_report_turns : ∃ w : World, w.gen.sent = twoLong ∧
    finishLines w.rr.schedulerLog =
      [⟨6, 1, .finish, 1, 2, 0, 3, some 5⟩, ⟨8, 2, .finish, 1, 2, 0, 5, some 7⟩] ∧
    w.gen.queue = [] ∧ Truthful (fun q => √(q : ℝ)) w.gen.sent (finishLines w.rr.schedulerLog)
      (writePerf (fun q => √(q : ℝ)) w.rr.perf) := by
  have hrun : (playIf (quietParams 1) (fun w mv => punctualCheck w mv && inStepCheck w mv)
      (start twoLong 1) reportRun).map
        (fun w => (w.rr.pc, w.gen.sent, finishLines w.rr.schedulerLog)) =
      some (.exited, twoLong,
        [⟨6, 1, .finish, 1, 2, 0, 3, some 5⟩, ⟨8, 2, .finish, 1, 2, 0, 5, some 7⟩]) := by
    decide +kernel
  obtain ⟨w, hw, he⟩ := Option.map_eq_some_iff.mp hrun
  simp only [Prod.mk.injEq] at he
  obtain ⟨hpc, hsent, hlines⟩ := he
  have hstart : (steady (quietParams 1)).Reachable (start twoLong 1) :=
    .init ⟨_, 1, workload_twoLong, fun _ _ => trivial, by decide, rfl⟩
  have hsteady : (steady (quietParams 1)).Reachable w := by
    refine playIf_reachable (fun w e hr hc => ?_) hstart hw
    obtain ⟨hpunctual, hstep⟩ := Bool.and_eq_true_iff.mp hc
    exact ⟨punctual_of_check hr hpunctual, inStep_of_check hstep⟩
  have hhead : w.gen.sent.head? = some { soleProcess 2 with id := 1, runtime := 2 } := by
    rw [hsent]
    rfl
  exact ⟨w, hsent, hlines, exited_report _ hsteady hpc hhead (by decide)⟩

end World

end CpuScheduler
