import CpuScheduler.Lib.Average
import CpuScheduler.RR.Accounting
import Mathlib.Analysis.Real.Sqrt

/-!
# The performance figures

`handleFinishedProcesses` adds a process that has finished to the figures of `PerfVars`
(`CpuScheduler.RRState.perfOf`), and `write_perf` prints them at the end. The weighted
turnaround times are summed up, and their mean and the sum of their squared deviations from it
are kept up to date without a list of them: these figures are exact
(`CpuScheduler.RRState.Exact`), so `write_perf` prints the mean and the standard deviation,
whatever the order in which the processes have finished.

The receiving of processes updates the figures as well, but not these
(`CpuScheduler.RRState.PerfEvent`). In a run, the processes that have finished are those with a
line in `scheduler.log` that says so (`CpuScheduler.World.reachable_exact`), and `write_perf`
does not take it that nothing has happened (`CpuScheduler.World.steady_writePerf`).
-/

namespace CpuScheduler

open Average

/-- What `write_perf` prints. `R` is where the square root is. -/
structure PerfLines (R : Type) where
  cpuUtil : ℚ
  avgWTA : ℚ
  avgWaiting : ℚ
  stdWTA : R

namespace RRState

/-- `write_perf`. -/
def writePerf {R : Type} [Zero R] (sqrtf : ℚ → R) (perf : PerfVars) : PerfLines R :=
  if perf.numProcs = 0 ∨ perf.finishTime ≤ perf.firstArrival then
    { cpuUtil := 0, avgWTA := 0, avgWaiting := 0, stdWTA := 0 }
  else
    { cpuUtil := perf.totalRuntime * 100 / (perf.finishTime - perf.firstArrival : ℤ)
      avgWTA := perf.avgWTA / perf.numProcs
      avgWaiting := perf.avgWaiting / perf.numProcs
      stdWTA := sqrtf (perf.m2WTA / perf.numProcs) }

/-- What happens to the figures: a process is received, or one has finished at the time `t`. -/
inductive PerfEvent
  | receive (d : ProcessData)
  | finish (x : PCB) (t : ℤ)

namespace PerfEvent

/-- The figures after an event. -/
def update (perf : PerfVars) : PerfEvent → PerfVars
  | .receive d => firstArrivalOf perf d
  | .finish x t => perfOf perf x t

/-- The figures after these events, from `initialize_perf` on. -/
def perfAfter (es : List PerfEvent) : PerfVars := es.foldl update initializePerf

/-- The processes that have finished, and when. -/
def finishes : List PerfEvent → List (PCB × ℤ)
  | [] => []
  | .receive _ :: es => finishes es
  | .finish x t :: es => (x, t) :: finishes es

end PerfEvent

open PerfEvent

/-- The weighted turnaround time of a process that has finished at the time `t`. -/
def wta (x : PCB) (t : ℤ) : ℚ := (t - x.arrival : ℤ) / x.runtime

/-- **The figures are exact** for these weighted turnaround times. -/
structure Exact (xs : List ℚ) (perf : PerfVars) : Prop where
  numProcs : perf.numProcs = xs.length
  avgWTA : perf.avgWTA = xs.sum
  welfordMeanWTA : perf.welfordMeanWTA = average xs
  m2WTA : perf.m2WTA = deviation xs

variable {perf perf' : PerfVars} {xs : List ℚ}

theorem exact_initializePerf : Exact [] initializePerf where
  numProcs := rfl
  avgWTA := rfl
  welfordMeanWTA := by
    rw [average, List.sum_nil, zero_div]
    rfl
  m2WTA := rfl

/-- The first arrival is another figure. -/
theorem Exact.receive (h : Exact xs perf) (d : ProcessData) : Exact xs (firstArrivalOf perf d) := by
  rw [firstArrivalOf]
  split_ifs
  · exact ⟨h.numProcs, h.avgWTA, h.welfordMeanWTA, h.m2WTA⟩
  · exact h

/-- **A process that has finished** keeps the figures exact. -/
theorem Exact.finish (h : Exact xs perf) (x : PCB) (t : ℤ) :
    Exact (xs ++ [wta x t]) (perfOf perf x t) := by
  have hcount : ((perf.numProcs + 1 : ℤ) : ℚ) = xs.length + 1 := by
    rw [h.numProcs]
    push_cast
    rfl
  have hmean : (perfOf perf x t).welfordMeanWTA = average (xs ++ [wta x t]) := by
    rw [average_concat, ← h.welfordMeanWTA, ← hcount]
    rfl
  refine ⟨?_, ?_, hmean, ?_⟩
  · rw [List.length_append, List.length_singleton, Nat.cast_add, Nat.cast_one, ← h.numProcs]
    rfl
  · rw [List.sum_append, List.sum_singleton, ← h.avgWTA]
    rfl
  · rw [deviation_concat, ← hmean, ← h.m2WTA, ← h.welfordMeanWTA]
    rfl

theorem Exact.update (h : Exact xs perf) (e : PerfEvent) :
    Exact (xs ++ (finishes [e]).map fun f => wta f.1 f.2) (PerfEvent.update perf e) := by
  cases e with
  | receive d =>
    rw [finishes, finishes, List.map_nil, List.append_nil]
    exact h.receive d
  | finish x t => exact h.finish x t

theorem finishes_append (es es' : List PerfEvent) :
    finishes (es ++ es') = finishes es ++ finishes es' := by
  induction es with
  | nil => rfl
  | cons e es ih =>
    cases e with
    | receive d => exact ih
    | finish x t => exact congrArg ((x, t) :: ·) ih

/-- **The figures are exact** after any events. -/
theorem exact_perfAfter (es : List PerfEvent) :
    Exact ((finishes es).map fun f => wta f.1 f.2) (perfAfter es) := by
  induction es using List.reverseRecOn with
  | nil => exact exact_initializePerf
  | append_singleton es e ih =>
    rw [finishes_append, List.map_append, perfAfter, List.foldl_append]
    exact ih.update e

/-- The order does not matter. -/
theorem Exact.of_perm {ys : List ℚ} (h : Exact xs perf) (hp : xs.Perm ys) : Exact ys perf where
  numProcs := by rw [h.numProcs, hp.length_eq]
  avgWTA := by rw [h.avgWTA, hp.sum_eq]
  welfordMeanWTA := by rw [h.welfordMeanWTA, average_perm hp]
  m2WTA := by rw [h.m2WTA, deviation_perm hp]

/-- **What `write_perf` prints** for exact figures: the mean, and the square root of the
variance. -/
theorem Exact.writePerf {R : Type} [Zero R] (sqrtf : ℚ → R) (h : Exact xs perf) (hne : xs ≠ [])
    (hlast : perf.firstArrival < perf.finishTime) :
    (writePerf sqrtf perf).avgWTA = average xs ∧
      (writePerf sqrtf perf).stdWTA = sqrtf (deviation xs / xs.length) := by
  have hpos : ¬(perf.numProcs = 0 ∨ perf.finishTime ≤ perf.firstArrival) := by
    rintro (h0 | hle)
    · rw [h.numProcs, Nat.cast_eq_zero] at h0
      exact hne (List.length_eq_zero_iff.mp h0)
    · exact hlast.not_ge hle
  rw [RRState.writePerf, if_neg hpos]
  constructor
  · dsimp only
    rw [h.avgWTA, h.numProcs, average, Int.cast_natCast]
  · dsimp only
    rw [h.m2WTA, h.numProcs, Int.cast_natCast]

/-! ### When `write_perf` prints them -/

theorem firstArrival_perfAfter (es : List PerfEvent) : (perfAfter es).firstArrival = -1 ∨
    ∃ d, PerfEvent.receive d ∈ es ∧ (perfAfter es).firstArrival = d.arrival := by
  induction es using List.reverseRecOn with
  | nil => exact Or.inl rfl
  | append_singleton es e ih =>
    have hold : (perfAfter es).firstArrival = -1 ∨ ∃ d, PerfEvent.receive d ∈ es ++ [e] ∧
        (perfAfter es).firstArrival = d.arrival :=
      ih.imp_right fun ⟨d, hd, he⟩ => ⟨d, List.mem_append_left _ hd, he⟩
    rw [perfAfter, List.foldl_append]
    cases e with
    | finish x t => exact hold
    | receive d =>
      show (firstArrivalOf (perfAfter es) d).firstArrival = -1 ∨ ∃ d' : ProcessData, _ ∧
        (firstArrivalOf (perfAfter es) d).firstArrival = d'.arrival
      rw [firstArrivalOf]
      split_ifs
      · exact Or.inr ⟨d, List.mem_append_right _ (List.mem_singleton_self _), rfl⟩
      · exact hold

theorem finishTime_perfAfter {es : List PerfEvent} (hne : finishes es ≠ []) :
    ∃ f ∈ finishes es, (perfAfter es).finishTime = f.2 := by
  induction es using List.reverseRecOn with
  | nil => exact absurd rfl hne
  | append_singleton es e ih =>
    rw [finishes_append] at hne ⊢
    rw [perfAfter, List.foldl_append]
    cases e with
    | finish x t => exact ⟨(x, t), List.mem_append_right _ (List.mem_singleton_self _), rfl⟩
    | receive d =>
      have hnil : finishes [PerfEvent.receive d] = [] := rfl
      rw [hnil, List.append_nil] at hne ⊢
      obtain ⟨f, hf, he⟩ := ih hne
      refine ⟨f, hf, ?_⟩
      show (firstArrivalOf (perfAfter es) d).finishTime = f.2
      rw [firstArrivalOf]
      split_ifs <;> exact he

/-- **The figures are printed** as soon as something has finished, if it has done so at a time of
the clock and after what was received had arrived; if nothing was received, nothing else is
needed. -/
theorem firstArrival_lt_of_finishes {es : List PerfEvent} (hne : finishes es ≠ [])
    (hclock : ∀ f ∈ finishes es, 0 ≤ f.2)
    (hlate : ∀ d, PerfEvent.receive d ∈ es → ∀ f ∈ finishes es, d.arrival < f.2) :
    (perfAfter es).firstArrival < (perfAfter es).finishTime := by
  obtain ⟨f, hf, hfinish⟩ := finishTime_perfAfter hne
  rw [hfinish]
  rcases firstArrival_perfAfter es with hfirst | ⟨d, hd, hfirst⟩
  · have := hclock f hf
    omega
  · rw [hfirst]
    exact hlate d hd f hf

/-- **What `write_perf` prints** after such events. -/
theorem writePerf_perfAfter {R : Type} [Zero R] (sqrtf : ℚ → R) {es : List PerfEvent}
    (hne : finishes es ≠ []) (hclock : ∀ f ∈ finishes es, 0 ≤ f.2)
    (hlate : ∀ d, PerfEvent.receive d ∈ es → ∀ f ∈ finishes es, d.arrival < f.2) :
    let xs := (finishes es).map fun f => wta f.1 f.2
    (writePerf sqrtf (perfAfter es)).avgWTA = average xs ∧
      (writePerf sqrtf (perfAfter es)).stdWTA = sqrtf (deviation xs / xs.length) := by
  intro xs
  have hxs : xs ≠ [] := fun h => hne (List.map_eq_nil_iff.mp h)
  exact (exact_perfAfter es).writePerf sqrtf hxs (firstArrival_lt_of_finishes hne hclock hlate)

/-- **The statistics are exact**, in whichever order the processes of `l` finish, and whenever
others are received: the sum, the mean, and the sum of the squared deviations from it. The variance
is not negative, and `write_perf` prints the mean and the root of the variance, unless it takes it
that nothing has happened. -/
theorem statistics_exact {l : List (PCB × ℤ)} (hne : l ≠ []) {es : List PerfEvent}
    (hes : (finishes es).Perm l) :
    let xs := l.map fun f => wta f.1 f.2
    Exact xs (perfAfter es) ∧ 0 ≤ deviation xs / xs.length ∧
    ((perfAfter es).firstArrival < (perfAfter es).finishTime →
      (writePerf (fun q => √(q : ℝ)) (perfAfter es)).avgWTA = average xs ∧
      (writePerf (fun q => √(q : ℝ)) (perfAfter es)).stdWTA =
        √((deviation xs / xs.length : ℚ) : ℝ)) := by
  intro xs
  have hxs : xs ≠ [] := fun h => hne (List.map_eq_nil_iff.mp h)
  have hexact : Exact xs (perfAfter es) := (exact_perfAfter es).of_perm (hes.map _)
  exact ⟨hexact, div_nonneg (deviation_nonneg xs) (Nat.cast_nonneg xs.length),
    hexact.writePerf _ hxs⟩

/-- A process with this arrival and this runtime. -/
def reported (arrival runtime : ℤ) : PCB :=
  createPCB { soleProcess 0 with arrival := arrival, runtime := runtime }

/-- Two processes arrive at tick 1 and run for two ticks each. The first one finishes at tick 3, the
second one at tick 7: their weighted turnaround times are 1 and 3. -/
def twoFinishes : List PerfEvent :=
  [.receive (soleProcess 0), .receive (soleProcess 0), .finish (reported 1 2) 3,
    .finish (reported 1 2) 7]

theorem statistics_exact_two : (perfAfter twoFinishes).avgWTA = ([1, 3] : List ℚ).sum ∧
    (perfAfter twoFinishes).welfordMeanWTA = 2 ∧ (perfAfter twoFinishes).m2WTA = 2 ∧
    (writePerf (fun q => √(q : ℝ)) (perfAfter twoFinishes)).avgWTA = 2 ∧
    (writePerf (fun q => √(q : ℝ)) (perfAfter twoFinishes)).stdWTA = √((1 : ℚ) : ℝ) := by
  have hperm : (finishes twoFinishes).Perm [(reported 1 2, 3), (reported 1 2, 7)] :=
    List.Perm.refl _
  have hxs : ([(reported 1 2, 3), (reported 1 2, 7)] : List (PCB × ℤ)).map
      (fun f => wta f.1 f.2) = [1, 3] := by
    decide +kernel
  have hmean : average ([1, 3] : List ℚ) = 2 := by decide +kernel
  have hdev : deviation ([1, 3] : List ℚ) = 2 := by decide +kernel
  have hlast : (perfAfter twoFinishes).firstArrival < (perfAfter twoFinishes).finishTime := by
    decide +kernel
  have h := statistics_exact (List.cons_ne_nil _ _) hperm
  rw [hxs] at h
  obtain ⟨hexact, -, hprint⟩ := h
  obtain ⟨havg, hstd⟩ := hprint hlast
  rw [hdev] at hstd
  refine ⟨hexact.avgWTA, hexact.welfordMeanWTA.trans hmean, hexact.m2WTA.trans hdev,
    havg.trans hmean, hstd.trans ?_⟩
  norm_num

/-! ### In a run -/

/-- The weighted turnaround time in a line of `scheduler.log`. -/
def LogLine.wta (r : LogLine) : ℚ := r.ta.elim 0 fun ta => (ta : ℚ) / r.runtime

/-- The weighted turnaround times in `scheduler.log`: those of the processes that have finished. -/
def loggedWTAs (log : List LogLine) : List ℚ :=
  (log.filter fun r => r.lState = .finish).map LogLine.wta

variable {K : Mem → Prop} {P : Params} {clk : Clk} {s s' : RRState}

/-- The lines about the processes that have finished. -/
def finishLines (log : List LogLine) : List LogLine := log.filter fun r => r.lState = .finish

/-- Other lines do not matter. -/
theorem finishLines_append {log ls : List LogLine} (hls : ∀ r ∈ ls, r.lState ≠ .finish) :
    finishLines (log ++ ls) = finishLines log := by
  have hnil : ls.filter (fun r => r.lState = .finish) = [] :=
    List.filter_eq_nil_iff.mpr fun r hr => by simpa using hls r hr
  rw [finishLines, List.filter_append, hnil, List.append_nil, finishLines]

theorem finishLines_finish (log : List LogLine) (x : PCB) (remaining t : ℤ) :
    finishLines (log ++ [lineOf (x.finish remaining t) t]) =
      finishLines log ++ [lineOf (x.finish remaining t) t] := by
  rw [finishLines, List.filter_append]
  rfl

theorem loggedWTAs_eq (log : List LogLine) :
    loggedWTAs log = (finishLines log).map LogLine.wta := rfl

theorem loggedWTAs_append {log ls : List LogLine} (hls : ∀ r ∈ ls, r.lState ≠ .finish) :
    loggedWTAs (log ++ ls) = loggedWTAs log := by
  rw [loggedWTAs_eq, finishLines_append hls, loggedWTAs_eq]

theorem loggedWTAs_finish (log : List LogLine) (x : PCB) (remaining t : ℤ) :
    loggedWTAs (log ++ [lineOf (x.finish remaining t) t]) =
      loggedWTAs log ++ [RRState.wta (x.finish remaining t) t] := by
  rw [loggedWTAs_eq, finishLines_finish, List.map_append]
  rfl

/-- **A phase keeps the figures exact.** -/
theorem Turn.exact (ht : Turn K P clk s s') (h : Exact (loggedWTAs s.schedulerLog) s.perf) :
    Exact (loggedWTAs s'.schedulerLog) s'.perf := by
  cases ht with
  | reap hpc hcur hx hwait hr =>
    show Exact (loggedWTAs (s.schedulerLog ++ [_])) _
    rw [loggedWTAs_finish]
    exact h.finish _ _
  | arrive hpc hrcv hd => exact h.receive _
  | @serve s₁ hpc hcur hs =>
    obtain ⟨ls, hlog, hls⟩ := hs.log
    obtain ⟨rq, mq, hfetch⟩ := s.fetched_eq clk
    have hperf : s₁.perf = (s.fetched clk).perf := by
      cases hs <;> rfl
    show Exact (loggedWTAs s₁.schedulerLog) s₁.perf
    rw [hlog, loggedWTAs_append hls, hperf, hfetch]
    exact h
  | firstScan hpc hu | lastScan hpc hu =>
    obtain ⟨m, u, b, n, -, -, rfl⟩ := hu
    exact h
  | @algo s₁ m print cl hpc hd hm hclear =>
    have h₁ : Exact (loggedWTAs s₁.schedulerLog) s₁.perf := by
      rcases hd with ⟨-, hd⟩ | ⟨-, rfl⟩
      · obtain ⟨ls, hlog, hls⟩ := hd.log
        have hperf : s₁.perf = s.perf := by
          obtain ⟨_, _, _, _, _, _, _, _, _, _, _, rfl⟩ := hd.frame
          rfl
        rw [hlog, loggedWTAs_append hls, hperf]
        exact h
      · exact h
    rw [permit]
    split_ifs
    · exact h₁
    · exact h₁
  | _ => exact h

end RRState

namespace World

open RRState

variable {P : Params} {w : World}

/-- **The figures are exact in every run**, for the processes that `scheduler.log` says have
finished. -/
theorem reachable_exact (h : (system P).Reachable w) :
    Exact (loggedWTAs w.rr.schedulerLog) w.rr.perf := by
  refine h.invariant_of (J := Inv (fun _ => True) fun _ => True)
    (P := fun w => Exact (loggedWTAs w.rr.schedulerLog) w.rr.perf) (fun _ => reachable_inv) ?_ ?_
  · rintro w ⟨l, t, -, -, -, rfl⟩
    exact exact_initializePerf
  · rintro w w' hi h ⟨e, hst⟩
    cases hst with
    | sched hclk hs => exact (hi.turn hs).exact h
    | @child _ p s hs =>
      obtain ⟨c, -, -, -, ⟨-, rfl⟩ | ⟨-, -, rfl⟩⟩ := childStep_cases hs
      · exact h
      · exact h
    | _ => exact h

/-- A process that is received takes time. -/
theorem reachable_admitted_pos (h : (system P).Reachable w) :
    ∀ d ∈ w.rr.admitted, 0 < d.runtime := by
  refine h.invariant_of (J := Inv (fun _ => True) fun _ => True)
    (P := fun w => ∀ d ∈ w.rr.admitted, 0 < d.runtime) (fun _ => reachable_inv) ?_ ?_
  · rintro w ⟨l, t, -, -, -, rfl⟩
    exact List.forall_mem_nil _
  · rintro w w' hi h ⟨e, hst⟩
    cases hst with
    | @sched _ clk s t hclk hs =>
      rcases (hi.turn hs).admitted with ⟨hadm, -⟩ | ⟨d, hrcv, h1, hadm⟩
      · intro d hd
        exact h d (hadm ▸ hd)
      · have hd : d ∈ w.pending := List.mem_append_right _ (List.mem_filter.mpr
          ⟨(MsgQueue.perm_of_rcv hrcv).mem_iff.mpr List.mem_cons_self, decide_eq_true h1⟩)
        intro d' hd'
        have hd' : d' ∈ w.rr.admitted ++ [d] := hadm ▸ hd'
        rcases List.mem_append.mp hd' with hd' | hd'
        · exact h d' hd'
        · rw [List.mem_singleton.mp hd']
          exact (hi.good d hd).2.1
    | @child _ p s hs =>
      obtain ⟨c, -, -, -, ⟨-, rfl⟩ | ⟨-, -, rfl⟩⟩ := childStep_cases hs
      · exact h
      · exact h
    | _ => exact h

/-- In a steady run the last process has finished after the first arrival. -/
theorem firstArrival_lt_finishTime (h : (steady P).Reachable w) (hfin : w.rr.finished ≠ [])
    (hfirst : ∀ d, w.rr.admitted.head? = some d → d.arrival ≠ -1) :
    w.rr.perf.firstArrival < w.rr.perf.finishTime := by
  have hsys : (system P).Reachable w := reachable_of_if h
  obtain ⟨hk, ho⟩ := reachable_timekept (fun _ _ hc => hc) h
  obtain ⟨p, hp⟩ := List.exists_mem_of_ne_nil _ hfin
  obtain ⟨d, hd, hticks⟩ := ho.done p hp
  have hpos := reachable_admitted_pos hsys d (List.mem_of_getElem? hd)
  -- what the process has executed is part of the total
  have hle : w.rr.executed.countP (fun e => e.1 = p) ≤
      w.rr.executed.countP fun e => e.1 ∈ w.rr.finished := by
    refine List.countP_mono_left fun e _ he => ?_
    have hep : e.1 = p := of_decide_eq_true he
    exact decide_eq_true (hep ▸ hp)
  have htotal := hk.totals.total
  rw [ticksOf] at hticks
  obtain ⟨d₀, hd₀⟩ : ∃ d₀, w.rr.admitted.head? = some d₀ := by
    cases hadm : w.rr.admitted with
    | nil =>
      rw [hadm] at hd
      cases hd
    | cons d₀ l => exact ⟨d₀, rfl⟩
  have hbusy := (hk.accounted ho).utilization hfin d₀ hd₀ (hfirst d₀ hd₀)
  omega

/-- **What `write_perf` prints in a steady run**: the mean of the weighted turnaround times in
`scheduler.log`, and the root of their variance. -/
theorem steady_writePerf {R : Type} [Zero R] (sqrtf : ℚ → R) (h : (steady P).Reachable w)
    (hfin : w.rr.finished ≠ [])
    (hfirst : ∀ d, w.rr.admitted.head? = some d → d.arrival ≠ -1) :
    (writePerf sqrtf w.rr.perf).avgWTA = average (loggedWTAs w.rr.schedulerLog) ∧
      (writePerf sqrtf w.rr.perf).stdWTA =
        sqrtf (deviation (loggedWTAs w.rr.schedulerLog) /
          (loggedWTAs w.rr.schedulerLog).length) := by
  have hexact := reachable_exact (reachable_of_if h)
  refine hexact.writePerf sqrtf ?_ (firstArrival_lt_finishTime h hfin hfirst)
  -- there is a line for each of them
  have hcount := (reachable_timekept (fun _ _ hc => hc) h).1.logged.count
  rw [List.countP_eq_length_filter] at hcount
  have hlen := List.length_pos_of_ne_nil hfin
  refine List.ne_nil_of_length_pos ?_
  rw [loggedWTAs, List.length_map]
  omega

end World

end CpuScheduler
