import CpuScheduler.Log
import CpuScheduler.RR.Admission

/-!
# The log of the round robin scheduler

Whatever the run, `scheduler.log` is the record of a processor that executes one process at a
time (`CpuScheduler.World.reachable_timeline`). The process that has the processor according to
the log is the running one, and those that are done are those that were let go of. When the
scheduler has left its loop, the log tells of everything that was sent to it, from the start to
the finish (`CpuScheduler.World.exited_courses`).

The invariant relates the state of that processor to the state of the scheduler
(`CpuScheduler.RRState.Shows`).
-/

namespace CpuScheduler

namespace RRState

open Fallible Mem Timeline

variable {K : Mem → Prop} {P : Params} {clk : Clk} {s s' : RRState} {p q : Ptr} {x y : PCB}
  {o : Option Ptr} {c : Cpu ℤ}

/-! ### The line of a dispatch -/

/-- When the line of a dispatch is written. -/
def dispatchSite (x : PCB) : ClkSite := if x.pid = -1 then .startLog else .resumeLog

/-- Only the core of a PCB is printed. -/
theorem lineOf_congr (h : y.core = x.core) (t : ℤ) : lineOf y t = lineOf x t := by
  have hf : ∀ {β : Type} (g : PCB → β), g y.core = g x.core := fun g => congrArg g h
  exact hf fun z => lineOf z t

/-- **The line of a dispatch** is the one of the process that is dispatched. -/
theorem runProcess_line (h : s.runProcess P clk p = .ok s') (hx : s.heap p = some x) :
    s'.schedulerLog = s.schedulerLog ++ [lineOf (x.dispatched clk p) (clk (dispatchSite x))] := by
  let s₁ : RRState := { s with
    shmRT := x.remainingTime, toMem := s.toMem.withPcb p (x.stamped clk) }
  have hx₁ : s₁.heap p = some (x.stamped clk) := withPcb_heap_self ..
  have hpid : (x.stamped clk).pid = x.pid := (stamped_own clk x).pid
  have hup : ({ s with shmRT := x.remainingTime } : RRState).update p (fun x =>
      if x.startTime = -1 then
        { x with startTime := clk .start, waitingTime := clk .start - x.arrival }
      else x) = .ok s₁ := update_eq (s := { s with shmRT := x.remainingTime }) hx _
  rw [runProcess, pcb_eq hx, ok_bind, hup, ok_bind, startOrResume, pcb_eq hx₁, ok_bind, hpid] at h
  rw [PCB.dispatched, dispatchSite]
  split_ifs at h ⊢ with hnew
  · cases hm : s₁.initializePCB clk p with
    | error e =>
      rw [startProcess, hm] at h
      exact absurd h (by rintro ⟨⟩)
    | ok m =>
      obtain ⟨z, hz, hcore, -⟩ := ((initializePCB_keeps clk s₁.toMem p).of_ok hm).pcb hx₁
      rw [startProcess_eq hm hz, ok_bind, update_eq (withPcb_heap_self ..)] at h
      rw [← Except.ok.inj h]
      show s.schedulerLog ++ [lineOf { z with lState := .start } _] = _
      have hstart : (z.started p).core = ((x.stamped clk).started p).core :=
        congrArg (PCB.started p) hcore
      rw [← lineOf_congr hstart]
      rfl
  · rw [resumeProcess_eq clk hx₁, ok_bind, update_eq (withPcb_heap_self ..)] at h
    rw [← Except.ok.inj h]

theorem dispatch_line {rest : List Ptr} (h : s.dispatch P clk = .ok s')
    (hq : s.readyQueue = p :: rest) (hx : s.heap p = some x) :
    s'.schedulerLog = s.schedulerLog ++ [lineOf (x.dispatched clk p) (clk (dispatchSite x))] := by
  rw [dispatch, hq, Queue.dequeue_cons, ok_bind] at h
  let s₁ : RRState := { s with readyQueue := rest, currProcess := some p }
  have hrun : s₁.runProcess P clk p = .ok s' := h
  have hline := runProcess_line hrun hx
  exact hline

/-- `RR_algo` dispatches from the state behind the preemption. -/
theorem rrAlgo_dispatch {s₁ : RRState} (h : s.rrAlgo P clk = .ok s')
    (hp : s.currProcess = some p) (hdue : clk .preemptDue ≥ s.nextPreemtionTime ∧
      ¬(s.mayExtend clk = .ok true ∧ clk .extendDue ≥ s.nextPreemtionTime))
    (hbefore : s.beforeDispatch clk = .ok s₁) :
    ({ s₁ with nextPreemtionTime := clk .nextPreemption + P.quantum } : RRState).dispatch P clk =
      .ok s' := by
  simp only [rrAlgo, hp] at h
  obtain ⟨b, hext, h⟩ := bind_eq_ok.mp h
  rw [if_neg fun hb : b = true ∧ _ => hdue.2 ⟨hb.1 ▸ hext, hb.2⟩, if_pos hdue.1, preempt] at h
  simp only [beforeDispatch, hp] at hbefore
  obtain ⟨s₂, hs₂, hbefore⟩ := bind_eq_ok.mp hbefore
  rw [hs₂, ok_bind, hbefore, ok_bind] at h
  obtain ⟨-, -, h⟩ := bind_eq_ok.mp h
  exact h

/-! ### The state of the processor -/

/-- The id of a process, by its handle. -/
def idAt (s : RRState) (p : Ptr) : Option ℤ := s.admitted[p]?.map ProcessData.id

/-- **What the log shows of the state.** The process `o` counts as running. -/
structure Shows (o : Option Ptr) (s : RRState) (c : Cpu ℤ) : Prop where
  replays : replay (timeline s.schedulerLog) = some c
  running : c.running = o.bind s.idAt
  live : ForallHeap (fun _ x => c.stage x.id = if x.pid = -1 then .fresh else .begun) s.toMem
  ended : ∀ p ∈ s.finished, ∀ i, s.idAt p = some i → c.stage i = .done
  known : ∀ i, c.stage i ≠ .fresh → i ∈ s.admitted.map ProcessData.id

/-- The handles and the ids of the processes. -/
structure Named (s : RRState) : Prop where
  ids : (s.admitted.map ProcessData.id).Nodup
  pcb : ForallHeap (fun p x => s.idAt p = some x.id ∧ p ∉ s.finished) s.toMem

theorem Named.idAt (h : Named s) (hx : s.heap p = some x) : s.idAt p = some x.id := (h.pcb p x hx).1

theorem Named.mem_ids (h : Named s) (hx : s.heap p = some x) :
    x.id ∈ s.admitted.map ProcessData.id := by
  obtain ⟨d, hd, hi⟩ := Option.map_eq_some_iff.mp (h.idAt hx)
  exact hi ▸ List.mem_map_of_mem (List.mem_of_getElem? hd)

theorem idAt_congr (hadm : s'.admitted = s.admitted) : s'.idAt = s.idAt := by
  funext p
  rw [RRState.idAt, RRState.idAt, hadm]

/-- The names stay. -/
theorem Named.sameCore (h : Named s) (hm : SameCore s.toMem s'.toMem)
    (hadm : s'.admitted = s.admitted) (hfin : s'.finished = s.finished) : Named s' where
  ids := hadm ▸ h.ids
  pcb := by
    rw [hfin, idAt_congr hadm]
    refine h.pcb.sameCore (fun p x y hc hx => ?_) hm
    rw [(core_eq hc).1]
    exact hx

theorem Named.withPcb {y : PCB} (h : Named s) (hx : s.heap p = some x) (hy : y.id = x.id)
    (hm : s'.toMem = s.toMem.withPcb p y) (hadm : s'.admitted = s.admitted)
    (hfin : s'.finished = s.finished) : Named s' where
  ids := hadm ▸ h.ids
  pcb := by
    rw [hfin, idAt_congr hadm, hm]
    exact h.pcb.withPcb (hy ▸ h.pcb p x hx)

/-- Different processes have different ids. -/
theorem Named.eq_of_idAt (h : Named s) {i : ℤ} (hp : s.idAt p = some i) (hq : s.idAt q = some i) :
    p = q := by
  have hget : ∀ {r}, s.idAt r = some i → (s.admitted.map ProcessData.id)[r]? = some i := fun h => by
    rw [List.getElem?_map]
    exact h
  obtain ⟨hlt, -⟩ := List.getElem?_eq_some_iff.mp (hget hp)
  exact (List.getElem?_inj hlt h.ids).mp ((hget hp).trans (hget hq).symm)

theorem Named.ne_id (h : Named s) (hx : s.heap p = some x) (hy : s.heap q = some y) (hne : q ≠ p) :
    y.id ≠ x.id := by
  intro hid
  refine hne (h.eq_of_idAt (h.idAt hy) ?_)
  rw [hid]
  exact h.idAt hx

/-- Nothing is written. -/
theorem Shows.quiet (h : Shows o s c) (hm : SameCore s.toMem s'.toMem)
    (hlog : s'.schedulerLog = s.schedulerLog) (hadm : s'.admitted = s.admitted)
    (hfin : s'.finished = s.finished) : Shows o s' c := by
  have hid := idAt_congr hadm
  refine ⟨hlog ▸ h.replays, hid ▸ h.running, ?_, ?_, hadm ▸ h.known⟩
  · refine h.live.sameCore (fun p x y hc hx => ?_) hm
    obtain ⟨hi, -, -, -, -, -, -, hpid, -⟩ := core_eq hc
    rw [hi, hpid]
    exact hx
  · rw [hid, hfin]
    exact h.ended

/-- The running process is taken off the processor. -/
theorem Shows.stop {r t u : ℤ} (h : Shows (some p) s c) (hn : Named s) (hx : s.heap p = some x)
    (hm : SameCore (s.toMem.withPcb p (x.halt r t)) s'.toMem)
    (hlog : s'.schedulerLog =
      s.schedulerLog ++ [lineOf { x with lState := .stop, remainingTime := r } u])
    (hadm : s'.admitted = s.admitted) (hfin : s'.finished = s.finished) :
    Shows none s' { c with running := none } := by
  have hid := idAt_congr hadm
  have hrun : c.running = some x.id := by
    rw [h.running, Option.bind_some, hn.idAt hx]
  refine ⟨?_, rfl, ?_, ?_, hadm ▸ h.known⟩
  · rw [hlog, replay_timeline h.replays (a := .stop) rfl]
    exact Cpu.step_stop.mpr ⟨hrun, rfl⟩
  · refine ForallHeap.sameCore (fun p x y hc hx => ?_) (ForallHeap.withPcb h.live ?_) hm
    · obtain ⟨hi, -, -, -, -, -, -, hpid, -⟩ := core_eq hc
      rw [hi, hpid]
      exact hx
    · exact h.live p x hx
  · rw [hid, hfin]
    exact h.ended

/-- The first ready process gets the processor. -/
theorem Shows.dispatch (h : Shows none s c) (hn : Named s) (hx : s.heap p = some x)
    (hm : SameCore (({ s.toMem with currProcess := some p } : Mem).withPcb p (x.dispatched clk p))
      s'.toMem)
    (hlog : s'.schedulerLog =
      s.schedulerLog ++ [lineOf (x.dispatched clk p) (clk (dispatchSite x))])
    (hadm : s'.admitted = s.admitted) (hfin : s'.finished = s.finished) :
    ∃ c', Shows (some p) s' c' := by
  have hid := idAt_congr hadm
  have hline : (lineOf (x.dispatched clk p) (clk (dispatchSite x))).id = x.id :=
    (dispatched_eq clk p x).1
  have hstage : c.stage x.id = if x.pid = -1 then .fresh else .begun := h.live p x hx
  -- what the processor does with the process
  obtain ⟨c', hstep, hrun, hbegun, hother⟩ : ∃ c', replay (timeline s'.schedulerLog) = some c' ∧
      c'.running = some x.id ∧ c'.stage x.id = .begun ∧ ∀ i, i ≠ x.id → c'.stage i = c.stage i := by
    by_cases hpid : x.pid = -1
    · have hst : (lineOf (x.dispatched clk p) (clk (dispatchSite x))).lState.act = some .start := by
        rw [PCB.dispatched, if_pos hpid]
        rfl
      rw [if_pos hpid] at hstage
      refine ⟨{ running := some x.id, stage := Function.update c.stage x.id .begun }, ?_, rfl,
        Function.update_self .., fun i hi => Function.update_of_ne hi ..⟩
      rw [hlog, replay_timeline h.replays hst, hline]
      exact Cpu.step_start.mpr ⟨⟨h.running, hstage⟩, rfl⟩
    · have hst : (lineOf (x.dispatched clk p) (clk (dispatchSite x))).lState.act =
          some .resume := by
        rw [PCB.dispatched, if_neg hpid]
        rfl
      rw [if_neg hpid] at hstage
      refine ⟨{ c with running := some x.id }, ?_, rfl, hstage, fun i hi => rfl⟩
      rw [hlog, replay_timeline h.replays hst, hline]
      exact Cpu.step_resume.mpr ⟨⟨h.running, hstage⟩, rfl⟩
  refine ⟨c', hstep, ?_, ?_, ?_, ?_⟩
  · rw [hrun, hid, Option.bind_some, hn.idAt hx]
  · have hpid : (x.dispatched clk p).pid ≠ -1 := by
      rw [PCB.dispatched]
      split_ifs with hnew
      · show ((p : ℤ) + 1) ≠ -1
        omega
      · exact (stamped_own clk x).pid ▸ hnew
    refine ForallHeap.sameCore (fun p x y hc hx => ?_) ?_ hm
    · obtain ⟨hi, -, -, -, -, -, -, hpid, -⟩ := core_eq hc
      rw [hi, hpid]
      exact hx
    · intro q y hy
      by_cases hq : q = p
      · subst hq
        obtain rfl := Option.some.inj ((withPcb_heap_self ..).symm.trans hy)
        rw [if_neg hpid, (dispatched_eq clk q x).1, hbegun]
      · have hy : s.heap q = some y := (withPcb_heap_of_ne hq _).symm.trans hy
        rw [hother _ (hn.ne_id hx hy hq)]
        exact h.live q y hy
  · intro q hq i hi
    rw [hfin] at hq
    rw [hid] at hi
    have hne : i ≠ x.id := by
      rintro rfl
      obtain rfl := hn.eq_of_idAt hi (hn.idAt hx)
      exact (hn.pcb q x hx).2 hq
    rw [hother i hne]
    exact h.ended q hq i hi
  · intro i hi
    rw [hadm]
    by_cases hix : i = x.id
    · rw [hix]
      exact hn.mem_ids hx
    · exact h.known i (hother i hix ▸ hi)

/-- The running process is let go of. -/
theorem Shows.finish {m : Mem} {t : ℤ} (h : Shows (some p) s c) (hn : Named s)
    (hx : s.heap p = some x) (hr : Released s.toMem m p) (hm : s'.toMem = m)
    (hlog : s'.schedulerLog = s.schedulerLog ++ [lineOf (x.finish s.shmRT t) t])
    (hadm : s'.admitted = s.admitted) (hfin : s'.finished = s.finished ++ [p]) :
    ∃ c', Shows none s' c' := by
  have hid := idAt_congr hadm
  have hrun : c.running = some x.id := by
    rw [h.running, Option.bind_some, hn.idAt hx]
  refine ⟨{ running := none, stage := Function.update c.stage x.id .done }, ?_, rfl, ?_, ?_, ?_⟩
  · rw [hlog, replay_timeline h.replays (a := .finish) rfl]
    exact Cpu.step_finish.mpr ⟨hrun, rfl⟩
  · intro q y hy
    rw [hm, hr.heap] at hy
    have hq : q ≠ p := by
      rintro rfl
      rw [Function.update_self] at hy
      exact absurd hy (by simp)
    rw [Function.update_of_ne hq] at hy
    show Function.update c.stage x.id .done y.id = _
    rw [Function.update_of_ne (hn.ne_id hx hy hq)]
    exact h.live q y hy
  · intro q hq i hi
    rw [hid] at hi
    rw [hfin] at hq
    by_cases hix : i = x.id
    · rw [hix]
      exact Function.update_self ..
    · refine (Function.update_of_ne hix ..).trans ?_
      rcases List.mem_append.mp hq with hq | hq
      · exact h.ended q hq i hi
      · rw [List.mem_singleton.mp hq, hn.idAt hx] at hi
        exact absurd (Option.some.inj hi).symm hix
  · intro i hi
    rw [hadm]
    by_cases hix : i = x.id
    · rw [hix]
      exact hn.mem_ids hx
    · exact h.known i (Function.update_of_ne hix _ c.stage ▸ hi)

/-- A process is received. -/
theorem Shows.arrive {d : ProcessData} {rest : List ProcessData} (h : Shows o s c) (hn : Named s)
    (ho : ∀ p ∈ o, ∃ x, s.heap p = some x) (hend : ∀ p ∈ s.finished, p < s.admitted.length)
    (hnew : d.id ∉ s.admitted.map ProcessData.id) :
    Shows o (({ s with msgq := rest } : RRState).receiveProcess d) c := by
  have hold : ∀ {p i}, s.idAt p = some i →
      idAt (({ s with msgq := rest } : RRState).receiveProcess d) p = some i := by
    intro p i hi
    obtain ⟨e, he, rfl⟩ := Option.map_eq_some_iff.mp hi
    have he' : (s.admitted ++ [d])[p]? = some e :=
      List.getElem?_append_left (List.getElem?_eq_some_iff.mp he).1 ▸ he
    show (s.admitted ++ [d])[p]?.map ProcessData.id = some e.id
    rw [he', Option.map_some]
  refine ⟨h.replays, ?_, ?_, ?_, ?_⟩
  · rw [h.running]
    cases o with
    | none => rfl
    | some p =>
      obtain ⟨x, hx⟩ := ho p rfl
      rw [Option.bind_some, Option.bind_some, hn.idAt hx, hold (hn.idAt hx)]
  · intro q y hy
    by_cases hq : q = s.brk
    · subst hq
      have hself : (({ s with msgq := rest } : RRState).receiveProcess d).heap s.brk =
          some (createPCB d) := Function.update_self ..
      obtain rfl := Option.some.inj (hself.symm.trans hy)
      have hpid : (createPCB d).pid = -1 := rfl
      rw [if_pos hpid]
      by_contra hne
      exact hnew (h.known _ hne)
    · exact h.live q y ((Function.update_of_ne hq ..).symm.trans hy)
  · intro p hp i hi
    refine h.ended p hp i ?_
    obtain ⟨e, he, rfl⟩ := Option.map_eq_some_iff.mp hi
    show s.admitted[p]?.map ProcessData.id = some e.id
    have hget : (s.admitted ++ [d])[p]? = s.admitted[p]? := List.getElem?_append_left (hend p hp)
    rw [← hget]
    exact hi
  · intro i hi
    show i ∈ (s.admitted ++ [d]).map ProcessData.id
    rw [List.map_append]
    exact List.mem_append_left _ (h.known i hi)

/-! ### The turns of the loop -/

/-- What `RR_algo` leaves is what it decides on, up to the `R` bits and the permit. -/
theorem algo_decides (hheld : Held (fun _ => True) s [] s.currProcess.toList)
    (h : s.algo P clk = .ok s') : ∃ s₁ m print cl, SameCore s₁.toMem m ∧
      s' = permit { s₁ with toMem := m, lastPrint := print, clears := cl } ∧
      ((s.rrAlgo P clk = .ok s₁ ∧ Decides (fun _ => True) P clk s s₁) ∨ s₁ = s) := by
  rw [algo] at h
  obtain ⟨s₁, hs₁, h⟩ := bind_eq_ok.mp h
  obtain ⟨s₂, hs₂, h⟩ := bind_eq_ok.mp h
  have hdecides : Held (fun _ => True) s₁ [] s₁.currProcess.toList ∧
      ((s.rrAlgo P clk = .ok s₁ ∧ Decides (fun _ => True) P clk s s₁) ∨ s₁ = s) := by
    rw [algoFrom] at hs₁
    split_ifs at hs₁ with hpos
    · have hd := (rrAlgo_outcome kept_true hheld fun _ _ _ => trivial).of_ok hs₁
      exact ⟨hd.1, Or.inl ⟨hs₁, hd.2⟩⟩
    · obtain rfl := Except.ok.inj hs₁
      exact ⟨hheld, Or.inr rfl⟩
  obtain ⟨-, m, print, cl, hm, -, rfl⟩ := (clearIfDue_outcome kept_true hdecides.1 P).of_ok hs₂
  exact ⟨s₁, m, print, cl, hm, (Except.ok.inj h).symm, hdecides.2⟩

/-- **What `RR_algo` writes.** -/
theorem Decides.shows (hd : Decides K P clk s s') (h : s.rrAlgo P clk = .ok s') (hn : Named s)
    (hs : Shows s.currProcess s c) : ∃ c', Shows s'.currProcess s' c' := by
  cases hd with
  | stay _ _ => exact ⟨c, hs⟩
  | extend hp hext => exact ⟨c, hs.quiet (SameCore.refl _) rfl rfl rfl⟩
  | @preempt p x s₁ _ hp hx hdue hwait hu hheld hbefore hd =>
    have hdisp := rrAlgo_dispatch h hp hdue hbefore
    obtain ⟨m, u, b, n, hm, -, rfl⟩ := hu
    rw [hp] at hs
    have hstop : Shows none (s.stopped clk p x) _ :=
      hs.stop hn hx ((SameCore.refl s.toMem).withPcb p rfl) rfl rfl rfl
    have hn₁ : Named (s.stopped clk p x) :=
      hn.withPcb (y := { x.halt s.shmRT (clk .stopped) with state := .W }) hx rfl rfl rfl rfl
    cases hd with
    | @intro r y m' rest line hq hy hstart hm' hline =>
      have hlog := dispatch_line hdisp hq hy
      let s₂ : RRState := { s.stopped clk p x with
        toMem := m, readyQueue := (s.stopped clk p x).readyQueue ++ u, blockQueue := b }
      have hn₂ : Named s₂ := hn₁.sameCore hm rfl rfl
      have hs₂ : Shows none s₂ _ := hstop.quiet hm rfl rfl rfl
      obtain ⟨c', hc'⟩ := hs₂.dispatch hn₂ hy hm' hlog rfl rfl
      have hcur : m'.currProcess = some r := hm'.cur
      exact ⟨c', hcur ▸ hc'⟩
  | @dispatch s₁ hp hd =>
    rw [hp] at hs
    cases hd with
    | @intro r y m' rest line hq hy hstart hm' hline =>
      simp only [rrAlgo, hp, hq, Queue.isEmpty_cons, Bool.false_eq_true, if_false] at h
      obtain ⟨s₂, hs₂, he⟩ := bind_eq_ok.mp h
      have hlog : s₂.schedulerLog = s.schedulerLog ++ [line] :=
        congrArg (fun t : RRState => t.schedulerLog) (Except.ok.inj he)
      let s₃ : RRState := { s with
        toMem := m', readyQueue := rest, shmRT := y.remainingTime
        schedulerLog := s.schedulerLog ++ [line], child := s.launchedChild P r y
        nextPreemtionTime := clk .nextPreemption + P.quantum }
      obtain ⟨c', hc'⟩ : ∃ c', Shows (some r) s₃ c' :=
        hs.dispatch hn hy hm' (hlog.symm.trans (dispatch_line hs₂ hq hy)) rfl rfl
      have hcur : m'.currProcess = some r := hm'.cur
      exact ⟨c', hcur ▸ hc'⟩

/-- The same in a state that differs elsewhere. -/
theorem Shows.of_heap (h : Shows o s c) (hm : s'.heap = s.heap)
    (hlog : s'.schedulerLog = s.schedulerLog) (hadm : s'.admitted = s.admitted)
    (hfin : s'.finished = s.finished) : Shows o s' c := by
  have hid := idAt_congr hadm
  refine ⟨hlog ▸ h.replays, hid ▸ h.running, fun p x hx => ?_, ?_, hadm ▸ h.known⟩
  · exact h.live p x (hm ▸ hx)
  · rw [hid, hfin]
    exact h.ended

/-- **Every turn of the loop is recorded.** -/
theorem Turn.shows (ht : Turn (fun _ => True) P clk s s') (h : s.phase P clk = .ok s')
    (hheld : Held (fun _ => True) s [] s.currProcess.toList) (hn : Named s)
    (hs : Shows s.currProcess s c) (hend : ∀ p ∈ s.finished, p < s.admitted.length)
    (hnew : ∀ d ∈ s.msgq, d.mtype = 1 → d.id ∉ s.admitted.map ProcessData.id) :
    ∃ c', Shows s'.currProcess s' c' := by
  cases ht with
  | serve hpc hcur hsrv =>
    obtain ⟨rq, mq, hf⟩ := fetched_eq clk s
    rw [hf] at hsrv
    cases hsrv with
    | keep _ hm _ => exact ⟨c, hm.cur ▸ hs.quiet hm rfl rfl rfl⟩
    | block _ _ _ hm _ => exact ⟨c, hm.cur ▸ hs.quiet hm rfl rfl rfl⟩
    | @switch m rq' ck p x page raw op hp hx hd hf' hm hrq =>
      have hp : s.currProcess = some p := hp
      rw [hp] at hs
      have hstop : Shows none { s with
          toMem := m, schedulerLog := s.schedulerLog ++
            [lineOf { x with lState := .stop, remainingTime := s.shmRT } (clk .reqLog)] }
          { c with running := none } := hs.stop hn hx hm rfl rfl rfl
      exact ⟨_, hstop.of_heap rfl rfl rfl rfl⟩
  | firstScan hpc hu | lastScan hpc hu =>
    obtain ⟨m, u, b, n, hm, -, rfl⟩ := hu
    exact ⟨c, hm.cur ▸ hs.quiet hm rfl rfl rfl⟩
  | @reap m p x hpc hcur hx hwait hr =>
    rw [hcur] at hs
    let s₁ : RRState := { s with
      toMem := m
      schedulerLog := s.schedulerLog ++ [lineOf (x.finish s.shmRT (clk .finish)) (clk .finish)]
      finished := s.finished ++ [p] }
    obtain ⟨c', hc'⟩ : ∃ c', Shows none s₁ c' := hs.finish hn hx hr rfl rfl rfl rfl
    have hnone : m.currProcess = none := hr.cur
    exact ⟨c', hnone ▸ hc'.of_heap rfl rfl rfl rfl⟩
  | @arrive d rest hpc hrcv hd =>
    refine ⟨c, hs.arrive hn (fun p hp => ?_) hend (hnew d ?_ hd)⟩
    · exact hheld.wf.alloc (hheld.wf.cur hp)
    · exact (MsgQueue.perm_of_rcv hrcv).mem_iff.mpr List.mem_cons_self
  | algo hpc hd hm hclear =>
    rw [phase, hpc] at h
    obtain ⟨s₂, hs₂, he⟩ := bind_eq_ok.mp h
    obtain ⟨s₁, m, print, cl, hm, rfl, hd⟩ := algo_decides hheld hs₂
    have hdone : ∃ c', Shows s₁.currProcess s₁ c' := by
      rcases hd with ⟨hr, hd⟩ | rfl
      · exact hd.shows hr hn hs
      · exact ⟨c, hs⟩
    obtain ⟨c', hc'⟩ := hdone
    have hs₂ : Shows s₁.currProcess { s₁ with toMem := m, lastPrint := print, clears := cl } c' :=
      hc'.quiet hm rfl rfl rfl
    have hcur : m.currProcess = s₁.currProcess := hm.cur
    rw [← Except.ok.inj he, permit]
    split_ifs <;> exact ⟨c', hcur ▸ hs₂.of_heap rfl rfl rfl rfl⟩
  | _ => exact ⟨c, hs.of_heap rfl rfl rfl rfl⟩

end RRState

namespace World

open Fallible RRState Mem Timeline

variable {P : Params} {w w' : World} {e : Event}

/-! ### The processes of a run -/

/-- **The processes of the workload**: those that the generator has sent have been received or
wait in the message queue. Nothing is sent behind the last message. -/
structure Registered (w : World) : Prop where
  workload : Workload (w.gen.sent ++ w.gen.queue)
  order : w.gen.sent = w.rr.admitted ++ w.rr.msgq.filter fun d => d.mtype = 1
  entered : Entered w.rr
  live : ForallHeap (fun p _ => p ∉ w.rr.finished) w.rr.toMem
  last : (w.rr.receivingProcesses = false ∨ ∃ d ∈ w.rr.msgq, d.mtype = 5) → w.gen.queue = []
  closed : w.rr.receivingProcesses = false → ∀ d ∈ w.rr.msgq, d.mtype ≠ 1

theorem Registered.ids (h : Registered w) : (w.rr.admitted.map ProcessData.id ++
    (w.rr.msgq.filter fun d => d.mtype = 1).map ProcessData.id).Nodup := by
  have hids := h.workload.ids
  rw [List.map_append, h.order, List.map_append] at hids
  exact hids.of_append_left

theorem Registered.named (h : Registered w) : Named w.rr where
  ids := h.ids.of_append_left
  pcb p x hx := by
    obtain ⟨d, hd, hi, -⟩ := h.entered.pcb p x hx
    refine ⟨?_, h.live p x hx⟩
    rw [idAt, hd, Option.map_some, hi]

/-- The id of a process that is on its way is new. -/
theorem Registered.new (h : Registered w) :
    ∀ d ∈ w.rr.msgq, d.mtype = 1 → d.id ∉ w.rr.admitted.map ProcessData.id := by
  intro d hd h1 hmem
  refine List.disjoint_of_nodup_append h.ids hmem (List.mem_map_of_mem ?_)
  exact List.mem_filter.mpr ⟨hd, decide_eq_true h1⟩

/-- A turn keeps the processes. -/
theorem Registered.turn {clk : Clk} {s : RRState} {t : ℤ} (h : Registered w)
    (ht : Turn (fun _ => True) P clk w.rr s) (hend : w.rr.finished ⊆ w.rr.received)
    (hs : s.finished = w.rr.finished ∨ ∃ p, s.finished = w.rr.finished ++ [p] ∧ s.heap p = none) :
    Registered { w with rr := s, clock := t } where
  workload := h.workload
  order := h.order.trans ht.receives.order.symm
  entered := (ht.entered h.entered).1
  live := by
    have hold : ForallHeap (fun p _ => p ∉ w.rr.finished) s.toMem := by
      refine ht.forall_heap (fun p x y _ hx => hx) (fun p x r hx => hx) (fun _ p x hx => hx)
        (fun d hrcv h1 hmem => ?_) h.live
      have hlt := List.mem_range.mp (h.entered.handles ▸ hend hmem)
      rw [h.entered.size] at hlt
      exact lt_irrefl _ hlt
    rcases hs with hs | ⟨p, hs, hnone⟩
    · show ForallHeap (fun p _ => p ∉ s.finished) s.toMem
      rw [hs]
      exact hold
    · intro q x hx hmem
      have hmem : q ∈ w.rr.finished ++ [p] := hs ▸ hmem
      rcases List.mem_append.mp hmem with hmem | hmem
      · exact hold q x hx hmem
      · have hx : s.heap q = some x := hx
        rw [List.mem_singleton.mp hmem, hnone] at hx
        exact absurd hx (by simp)
  last hlast := by
    refine h.last ?_
    have hsub : ∀ {d rest}, MsgQueue.rcv ProcessData.mtype (-5) w.rr.msgq = some (d, rest) →
        (w.rr.receivingProcesses = false ∨ ∃ d ∈ rest, d.mtype = 5) →
          w.rr.receivingProcesses = false ∨ ∃ d ∈ w.rr.msgq, d.mtype = 5 := by
      rintro d rest hrcv (hrec | ⟨d', hd', h5⟩)
      · exact Or.inl hrec
      · exact Or.inr ⟨d', (MsgQueue.perm_of_rcv hrcv).mem_iff.mpr (List.mem_cons_of_mem _ hd'), h5⟩
    cases ht.receives with
    | other hsame _ _ =>
      rcases hlast with hrec | ⟨d, hd, h5⟩
      · exact Or.inl (hsame.receiving ▸ hrec)
      · exact Or.inr ⟨d, hsame.msgq ▸ hd, h5⟩
    | listen _ _ _ | skip _ _ => exact hlast
    | arrive _ hrcv _ | sync _ hrcv _ _ | drop _ hrcv _ _ _ => exact hsub hrcv hlast
    | last _ hrcv hd =>
      exact Or.inr ⟨_, (MsgQueue.perm_of_rcv hrcv).mem_iff.mpr List.mem_cons_self, hd⟩
  closed hrec := by
    have hsub : ∀ {d rest}, MsgQueue.rcv ProcessData.mtype (-5) w.rr.msgq = some (d, rest) →
        w.rr.receivingProcesses = false → ∀ d ∈ rest, d.mtype ≠ 1 := by
      intro d rest hrcv hrec d' hd'
      exact h.closed hrec d' ((MsgQueue.perm_of_rcv hrcv).mem_iff.mpr (List.mem_cons_of_mem _ hd'))
    cases ht.receives with
    | other hsame _ _ =>
      intro d hd
      exact h.closed (hsame.receiving ▸ hrec) d (hsame.msgq ▸ hd)
    | listen _ _ _ | skip _ _ => exact h.closed hrec
    | arrive _ hrcv _ | sync _ hrcv _ _ | drop _ hrcv _ _ _ => exact hsub hrcv hrec
    | last _ hrcv hd => exact (ne_one_of_rcv hrcv (by rw [hd]; decide)).2

/-- A message is posted. -/
theorem Registered.post (h : Registered w) (d : ProcessData) (g : Generator)
    (hall : g.sent ++ g.queue = w.gen.sent ++ w.gen.queue)
    (hsent : g.sent = w.gen.sent ++ if d.mtype = 1 then [d] else [])
    (hq : d.mtype = 5 ∨ w.gen.queue = [] → g.queue = [])
    (hopen : d.mtype = 1 → w.gen.queue ≠ []) : Registered (w.post d g) where
  workload := hall.symm ▸ h.workload
  order := by
    show g.sent = w.rr.admitted ++ (w.rr.msgq ++ [d]).filter _
    rw [hsent, h.order, List.filter_append, List.append_assoc, List.filter_singleton]
    by_cases hd : d.mtype = 1 <;> simp [hd]
  entered := ⟨h.entered.size, h.entered.handles, h.entered.pcb⟩
  live := h.live
  last hlast := by
    rcases hlast with hrec | ⟨d', hd', h5⟩
    · exact hq (Or.inr (h.last (Or.inl hrec)))
    · rcases List.mem_append.mp hd' with hd' | hd'
      · exact hq (Or.inr (h.last (Or.inr ⟨d', hd', h5⟩)))
      · exact hq (Or.inl (List.mem_singleton.mp hd' ▸ h5))
  closed hrec d' hd' := by
    rcases List.mem_append.mp hd' with hd' | hd'
    · exact h.closed hrec d' hd'
    · rw [List.mem_singleton.mp hd']
      exact fun h1 => hopen h1 (h.last (Or.inl hrec))

theorem Step.registered (hst : Step P e w w') (hi : Inv (fun _ => True) (fun _ => True) w)
    (h : Registered w) : Registered w' := by
  have hend : w.rr.finished ⊆ w.rr.received := fun p hp => by
    have hmem : p ∈ (w.rr.received : Multiset Ptr) := by
      rw [hi.held.history]
      exact Multiset.mem_add.mpr (Or.inl hp)
    exact hmem
  cases hst with
  | sched hclk hs =>
    have ht := hi.turn hs
    refine h.turn ht hend ?_
    cases ht with
    | reap hpc hcur hx hwait hr =>
      refine Or.inr ⟨_, rfl, ?_⟩
      exact (congrFun hr.heap _).trans (Function.update_self ..)
    | serve hpc hcur hsrv =>
      obtain ⟨rq, mq, hf⟩ := fetched_eq _ w.rr
      rw [hf] at hsrv
      cases hsrv <;> exact Or.inl rfl
    | firstScan hpc hu | lastScan hpc hu =>
      obtain ⟨m, u, b, n, -, -, rfl⟩ := hu
      exact Or.inl rfl
    | @algo s₁ m print cl hpc hd hm hclear =>
      have hfin : s₁.finished = w.rr.finished := by
        rcases hd with ⟨-, hd⟩ | ⟨-, rfl⟩
        · obtain ⟨m, r, b, n, t, u, k, rt, log, ch, c, rfl⟩ := hd.frame
          rfl
        · rfl
      rw [permit]
      split_ifs <;> exact Or.inl hfin
    | _ => exact Or.inl rfl
  | child hs =>
    obtain ⟨c, -, -, -, ⟨-, rfl⟩ | ⟨-, -, rfl⟩⟩ := childStep_cases hs <;>
      exact ⟨h.workload, h.order, ⟨h.entered.size, h.entered.handles, h.entered.pcb⟩, h.live,
        h.last, h.closed⟩
  | observe _ _ _ => exact ⟨h.workload, h.order, h.entered, h.live, h.last, h.closed⟩
  | @send _ t d q hcur hq hdue =>
    have hd : d.mtype = 1 :=
      h.workload.mtype d (List.mem_append_right _ (hq ▸ List.mem_cons_self))
    refine h.post d _ ?_ (by rw [if_pos hd]) ?_ fun _ hnil => ?_
    · show w.gen.sent ++ [d] ++ q = _
      rw [hq, List.append_assoc, List.singleton_append]
    · rintro (h5 | hnil)
      · rw [hd] at h5
        exact absurd h5 (by decide)
      · rw [hq] at hnil
        exact absurd hnil (by simp)
    · rw [hq] at hnil
      exact absurd hnil (by simp)
  | sync hcur hq =>
    refine h.post _ _ rfl (List.append_nil _).symm ?_ fun (hc : (2 : ℤ) = 1) =>
      absurd hc (by decide)
    rintro ((h5 : (2 : ℤ) = 5) | hnil)
    · exact absurd h5 (by decide)
    · exact hnil
  | last hq hcur hdone =>
    exact h.post _ _ rfl (List.append_nil _).symm (fun _ => hq) fun (hc : (5 : ℤ) = 1) =>
      absurd hc (by decide)

/-- **Every run keeps its workload.** -/
theorem reachable_registered (h : (system P).Reachable w) : Registered w := by
  refine h.invariant_of (J := Inv (fun _ => True) (fun _ => True))
    (fun w hw => reachable_inv hw) ?_ ?_
  · rintro w ⟨l, t, hl, -, -, rfl⟩
    refine ⟨hl, rfl, ⟨rfl, rfl, fun p x hx => absurd hx (by rintro ⟨⟩)⟩,
      fun p x hx => absurd hx (by rintro ⟨⟩), ?_, fun (hc : true = false) => absurd hc (by decide)⟩
    rintro ((hc : true = false) | ⟨d, hd, -⟩)
    · exact absurd hc (by decide)
    · exact absurd hd List.not_mem_nil
  · rintro w w' hi h ⟨e, hst⟩
    exact hst.registered hi h

theorem reachable_shows (h : (system P).Reachable w) :
    ∃ c, Shows w.rr.currProcess w.rr c := by
  refine h.invariant_of (J := fun w => (system P).Reachable w)
    (P := fun w => ∃ c, Shows w.rr.currProcess w.rr c) (fun w hw => hw) ?_ ?_
  · rintro w ⟨l, t, -, -, -, rfl⟩
    exact ⟨idle, rfl, rfl, fun p x hx => absurd hx (by rintro ⟨⟩),
      fun p hp => absurd hp List.not_mem_nil, fun i hi => absurd rfl hi⟩
  · rintro w w' hw ⟨c, hs⟩ ⟨e, hst⟩
    have hi := reachable_inv hw
    have hreg := reachable_registered hw
    cases hst with
    | sched hclk hph =>
      refine (hi.turn hph).shows hph hi.held hreg.named hs (fun p hp => ?_) hreg.new
      have hmem : p ∈ (w.rr.received : Multiset Ptr) := by
        rw [hi.held.history]
        exact Multiset.mem_add.mpr (Or.inl hp)
      exact List.mem_range.mp (hreg.entered.handles ▸ hmem)
    | child hch =>
      obtain ⟨c', -, -, -, ⟨-, rfl⟩ | ⟨-, -, rfl⟩⟩ := childStep_cases hch <;>
        exact ⟨c, hs.of_heap rfl rfl rfl rfl⟩
    | _ => exact ⟨c, hs.of_heap rfl rfl rfl rfl⟩

/-! ### The results -/

/-- **The log is the record of one processor.** In every state of every run, the lines of
`scheduler.log` are the acts of a processor that executes one process at a time; according to
them it executes the running process, it is done with those that were let go of and with no
others, and it knows only processes that were received. -/
theorem reachable_timeline (h : (system P).Reachable w) :
    Exclusive (timeline w.rr.schedulerLog) ∧ ∃ c, replay (timeline w.rr.schedulerLog) = some c ∧
      c.running = w.rr.currProcess.bind w.rr.idAt ∧
      (∀ i, c.stage i = .done ↔ ∃ p ∈ w.rr.finished, w.rr.idAt p = some i) ∧
      ∀ i, c.stage i ≠ .fresh → i ∈ w.rr.admitted.map ProcessData.id := by
  obtain ⟨c, hs⟩ := reachable_shows h
  have hreg := reachable_registered h
  refine ⟨replay_exclusive hs.replays, c, hs.replays, hs.running, fun i => ⟨fun hdone => ?_, ?_⟩,
    hs.known⟩
  · have hi := hs.known i (by rw [hdone]; simp)
    obtain ⟨d, hd, rfl⟩ := List.mem_map.mp hi
    obtain ⟨p, hlt, hp⟩ := List.mem_iff_getElem.mp hd
    have hid : w.rr.idAt p = some d.id := by
      rw [idAt, List.getElem?_eq_getElem hlt, hp, Option.map_some]
    refine ⟨p, ?_, hid⟩
    -- a received process that is not finished is in the heap, and not done
    have hcust := (reachable_inv h).held.toCustody
    have hrec : p ∈ (w.rr.received : Multiset Ptr) := by
      rw [hreg.entered.handles]
      exact List.mem_range.mpr hlt
    rw [hcust.history] at hrec
    refine (Multiset.mem_add.mp hrec).resolve_right fun hcur => ?_
    obtain ⟨x, hx⟩ := hcust.live hcur
    have hxid : some x.id = some d.id := (hreg.named.idAt hx.2).symm.trans hid
    have hstage : c.stage x.id = if x.pid = -1 then .fresh else .begun := hs.live p x hx.2
    rw [Option.some.inj hxid, hdone] at hstage
    split_ifs at hstage
  · rintro ⟨p, hp, hid⟩
    exact hs.ended p hp i hid

/-- Two processes that arrive together, with two ticks each. -/
def twoLong : List ProcessData := [1, 2].map fun id => { soleProcess 2 with id := id, runtime := 2 }

theorem workload_twoLong : Workload twoLong := by
  refine ⟨?_, ?_, ?_⟩ <;> decide

/-- With a quantum of 1, the second one is dispatched in the place of the first one at tick 2. -/
def preemptingRun : List Move := List.flatten
  [[.observe 1, .send, .send, .sync, .last], List.replicate 10 (.sched 1 1), [.child 0],
    List.replicate 6 (.sched 2 2), [.sched 2 3]]

theorem reachable_timeline_preempting : ∃ w : World,
    timeline w.rr.schedulerLog = [(.start, 1), (.stop, 1), (.start, 2)] ∧
    Exclusive (timeline w.rr.schedulerLog) ∧ ∃ c, replay (timeline w.rr.schedulerLog) = some c ∧
      c.running = w.rr.currProcess.bind w.rr.idAt ∧
      (∀ i, c.stage i = .done ↔ ∃ p ∈ w.rr.finished, w.rr.idAt p = some i) ∧
      ∀ i, c.stage i ≠ .fresh → i ∈ w.rr.admitted.map ProcessData.id := by
  have hrun : (playAll (quietParams 1) (start twoLong 1) preemptingRun).map
      (fun w => timeline w.rr.schedulerLog) = some [(.start, 1), (.stop, 1), (.start, 2)] := by
    decide +kernel
  obtain ⟨w, hw, hlog⟩ := Option.map_eq_some_iff.mp hrun
  exact ⟨w, hlog, reachable_timeline (playAll_reachable
    (.init ⟨_, 1, workload_twoLong, fun _ _ => trivial, by decide, rfl⟩) hw)⟩

/-- The loop is not left while processes may come. -/
theorem reachable_received (h : (system P).Reachable w) :
    w.rr.pc = .exited → w.rr.receivingProcesses = false := by
  refine h.invariant_of (J := Inv (fun _ => True) fun _ => True)
    (P := fun w => w.rr.pc = .exited → w.rr.receivingProcesses = false)
    (fun _ => reachable_inv) ?_ ?_
  · rintro w ⟨l, t, -, -, -, rfl⟩ hex
    exact absurd hex (by rintro ⟨⟩)
  · rintro w w' hi h ⟨e, hst⟩
    cases hst with
    | sched hclk hs =>
      intro hex
      cases hi.turn hs with
      | exit hpc hready hblock hrec hcur => exact hrec
      | spin hpc | arrive hpc _ _ | drop hpc _ _ _ _ => exact absurd (hpc.symm.trans hex) (by simp)
      | _ => exact absurd hex (by simp)
    | child hch =>
      obtain ⟨c, -, -, -, ⟨-, rfl⟩ | ⟨-, -, rfl⟩⟩ := childStep_cases hch <;> exact h
    | _ => exact h

/-- When the scheduler has left its loop, it has received all there is, and all of it has
finished. -/
theorem exited_finished (h : (system P).Reachable w) (hpc : w.rr.pc = .exited) :
    w.gen.queue = [] ∧ w.rr.admitted = w.gen.sent ∧
      w.rr.finished.Perm (List.range w.rr.admitted.length) := by
  have hreg := reachable_registered h
  obtain ⟨hready, hblock, hnone⟩ := reachable_closed h hpc
  have hcust := (reachable_inv h).held.toCustody
  have hrec := reachable_received h hpc
  have hadm : w.rr.admitted = w.gen.sent := by
    rw [hreg.order, List.filter_eq_nil_iff.mpr fun d hd => by simpa using hreg.closed hrec d hd,
      List.append_nil]
  have hhistory := hcust.history
  rw [hcust.places, hready, hblock, hnone, hreg.entered.handles] at hhistory
  refine ⟨hreg.last (Or.inl hrec), hadm, Multiset.coe_eq_coe.mp ?_⟩
  simpa using hhistory.symm

/-- **When the scheduler has left its loop, the log tells of every process of the workload**, from
the start to the finish, and of no other. -/
theorem exited_courses (h : (system P).Reachable w) (hpc : w.rr.pc = .exited) :
    w.gen.queue = [] ∧ w.rr.admitted = w.gen.sent ∧
      (∀ d ∈ w.gen.sent, Course .done false (own d.id (timeline w.rr.schedulerLog))) ∧
      ∀ e ∈ timeline w.rr.schedulerLog, e.2 ∈ w.gen.sent.map ProcessData.id := by
  obtain ⟨hqueue, hadm, hfinished⟩ := exited_finished h hpc
  obtain ⟨c, hs⟩ := reachable_shows h
  obtain ⟨-, -, hnone⟩ := reachable_closed h hpc
  refine ⟨hqueue, hadm, fun d hd => ?_, fun e he => ?_⟩
  · obtain ⟨p, hlt, hp⟩ := List.mem_iff_getElem.mp (hadm ▸ hd)
    have hid : w.rr.idAt p = some d.id := by
      rw [idAt, List.getElem?_eq_getElem hlt, hp, Option.map_some]
    have hfin : p ∈ w.rr.finished := hfinished.mem_iff.mpr (List.mem_range.mpr hlt)
    have hcourse := replay_course hs.replays d.id
    rw [hs.ended p hfin d.id hid, hs.running, hnone, Option.bind_none,
      decide_eq_false (by simp)] at hcourse
    exact hcourse
  · rw [← hadm]
    refine hs.known e.2 fun hfresh => ?_
    have hcourse := replay_course hs.replays e.2
    rw [hfresh] at hcourse
    exact absurd (mem_own he) (by rw [hcourse.fresh_eq_nil]; simp)

/-- A process that finishes at tick 2; the loop is left at tick 3. -/
def leavingRun : List Move := List.flatten
  [[.observe 1, .send, .sync, .last], List.replicate 9 (.sched 1 1), [.child 0, .child 0],
    List.replicate 8 (.sched 2 2), List.replicate 9 (.sched 3 3)]

theorem exited_courses_leaving : ∃ w : World,
    w.gen.sent = [shortProcess] ∧ timeline w.rr.schedulerLog = [(.start, 7), (.finish, 7)] ∧
    w.gen.queue = [] ∧ w.rr.admitted = w.gen.sent ∧
      (∀ d ∈ w.gen.sent, Course .done false (own d.id (timeline w.rr.schedulerLog))) ∧
      ∀ e ∈ timeline w.rr.schedulerLog, e.2 ∈ w.gen.sent.map ProcessData.id := by
  have hrun : (playAll (quietParams 2) (start [shortProcess] 1) leavingRun).map
      (fun w => (w.rr.pc, w.gen.sent, timeline w.rr.schedulerLog)) =
        some (.exited, [shortProcess], [(.start, 7), (.finish, 7)]) := by
    decide +kernel
  obtain ⟨w, hw, he⟩ := Option.map_eq_some_iff.mp hrun
  simp only [Prod.mk.injEq] at he
  obtain ⟨hpc, hsent, hlog⟩ := he
  have hworkload : Workload [shortProcess] := by refine ⟨?_, ?_, ?_⟩ <;> decide
  exact ⟨w, hsent, hlog, exited_courses (playAll_reachable
    (.init ⟨_, 1, hworkload, fun _ _ => trivial, by decide, rfl⟩) hw) hpc⟩

end World

end CpuScheduler
