import CpuScheduler.Hpf.Moves

/-!
# HPF does not invert priorities

Whatever the order of the arrivals and however long anybody takes, the ready queue is sorted
by priority, and a process that is running when `HPF_algo` has returned has a priority at
most that of every process that is ready (`CpuScheduler.Hpf.State.Ranked`). Each process that
has been received is running, ready or finished, and in one of these places only
(`CpuScheduler.Hpf.World.Conserved`).
-/

namespace CpuScheduler

namespace Hpf

variable {s s' : State} {clk pid : ℤ}

namespace State

/-! ### The ranks -/

/-- **The order of the processes**, lower values first. -/
structure Ranked (s : State) : Prop where
  sorted : Stable.Sorted PCB.priority s.readyQueue
  /-- Nobody is running in `wait_N_secs`. -/
  waiting : (s.pc = .waitStart ∨ ∃ c, s.pc = .wait c) → s.currProcess = none
  /-- `HPF_algo` has returned. -/
  chosen : s.pc = .permit → 0 < s.now → ∀ x ∈ s.currProcess, ∀ y ∈ s.readyQueue,
    x.priority ≤ y.priority

theorem dispatched_fields (x : PCB) (clk pid : ℤ) : (dispatched x clk pid).id = x.id ∧
    (dispatched x clk pid).priority = x.priority ∧ (dispatched x clk pid).arrival = x.arrival ∧
    (dispatched x clk pid).runtime = x.runtime ∧
    (dispatched x clk pid).remainingTime = x.remainingTime := by
  unfold dispatched
  by_cases hs : x.startTime = -1
  · by_cases hp : x.pid = -1
    · simp only [if_pos hs, if_pos hp, and_self]
    · simp only [if_pos hs, if_neg hp, and_self]
  · by_cases hp : x.pid = -1
    · simp only [if_neg hs, if_pos hp, and_self]
    · simp only [if_neg hs, if_neg hp, and_self]

/-- A state whose queue is the same, at a cut where nothing is asked for. -/
theorem Ranked.goto (h : Ranked s) (hq : s'.readyQueue = s.readyQueue)
    (hw : s'.pc ≠ .waitStart ∧ ∀ c, s'.pc ≠ .wait c) (hp : s'.pc = .permit → s'.now ≤ 0) :
    Ranked s' where
  sorted := by
    rw [hq]
    exact h.sorted
  waiting hc := by
    rcases hc with hc | ⟨c, hc⟩
    · exact absurd hc hw.1
    · exact absurd hc (hw.2 c)
  chosen hc hnow := absurd hnow (hp hc).not_gt

/-- Behind the loop that receives processes. -/
theorem behindReceive_cases (now : ℤ) :
    (0 < now ∧ behindReceive now = .algo) ∨ (now ≤ 0 ∧ behindReceive now = .permit) := by
  rw [behindReceive]
  split_ifs with h
  · exact Or.inl ⟨h, rfl⟩
  · exact Or.inr ⟨not_lt.mp h, rfl⟩

/-- The first of a sorted queue comes before all others. -/
theorem le_of_sorted_cons {x : PCB} {q : List PCB} (h : Stable.Sorted PCB.priority (x :: q)) :
    ∀ y ∈ x :: q, x.priority ≤ y.priority := by
  intro y hy
  rcases List.mem_cons.mp hy with rfl | hy
  · exact le_rfl
  · exact (Stable.sorted_cons.mp h).1 y hy

/-- **The scheduler keeps the order.** -/
theorem Ranked.moves (h : Ranked s) (hm : Moves clk s s') : Ranked s' := by
  have hbehind : ∀ s₁ : State, s₁.readyQueue = s.readyQueue → s₁.now = s.now →
      s₁.pc = behindReceive s.now → Ranked s₁ := by
    intro s₁ hq hnow hpc
    rcases behindReceive_cases s.now with ⟨-, hb⟩ | ⟨hle, hb⟩
    · refine h.goto hq ⟨?_, fun c => ?_⟩ fun hp => ?_
      · rw [hpc, hb]
        exact nofun
      · rw [hpc, hb]
        exact nofun
      · rw [hpc, hb] at hp
        exact nomatch hp
    · refine h.goto hq ⟨?_, fun c => ?_⟩ fun _ => hnow ▸ hle
      · rw [hpc, hb]
        exact nofun
      · rw [hpc, hb]
        exact nofun
  cases hm with
  | spin _ _ _ => exact h
  | leave _ _ | begin _ _ _ | running _ _ | signalled _ _ _ | reap _ _ _ _ | closed _ _ _
  | listen _ _ _ | preempt _ _ _ _ | permit _ => exact h.goto rfl ⟨nofun, nofun⟩ nofun
  | skip _ _ _ => exact hbehind _ rfl rfl rfl
  | sync _ _ _ _ => exact hbehind _ rfl rfl rfl
  | last _ _ _ => exact hbehind _ rfl rfl rfl
  | @drop msg rest hpc _ _ =>
    refine h.goto rfl ⟨?_, fun c => ?_⟩ fun hp => ?_
    · exact hpc ▸ nofun
    · exact hpc ▸ nofun
    · exact nomatch hpc.symm.trans hp
  | @arrive msg rest hpc _ _ =>
    refine ⟨Queue.sorted_priority h.sorted, fun hc => h.waiting hc, fun hp => ?_⟩
    exact nomatch hpc.symm.trans hp
  | idle hpc hrun hnone =>
    refine ⟨h.sorted, nofun, fun _ _ x hx y hy => ?_⟩
    -- the running process comes before the first one that is ready
    obtain ⟨z, q, hq⟩ := List.exists_cons_of_ne_nil (List.ne_nil_of_mem hy)
    have hle : x.priority ≤ z.priority := hrun x hx z (by rw [hq]; rfl)
    refine hle.trans (le_of_sorted_cons (q := q) ?_ y ?_)
    · rw [← hq]
      exact h.sorted
    · rw [← hq]
      exact hy
  | @dispatch x q hpc hcurr hq l =>
    have hsorted := h.sorted
    rw [hq] at hsorted
    refine ⟨(Stable.sorted_cons.mp hsorted).2, nofun, fun _ _ y hy z hz => ?_⟩
    obtain rfl := Option.some.inj hy
    rw [(dispatched_fields x clk (s.forks + 1)).2.1]
    exact (Stable.sorted_cons.mp hsorted).1 z hz
  | stop _ _ _ => exact ⟨Queue.sorted_priority h.sorted, fun _ => rfl, nofun⟩
  | waitStart hpc => exact ⟨h.sorted, fun _ => h.waiting (Or.inl hpc), nofun⟩
  | @waited c hpc hc =>
    have hnone := h.waiting (Or.inr ⟨c, hpc⟩)
    refine ⟨h.sorted, nofun, fun _ _ x hx => ?_⟩
    rw [show s.currProcess = none from hnone] at hx
    exact nomatch hx

/-- The children have nothing to do with it. -/
theorem Ranked.executes (h : Ranked s) (he : Executes pid clk s s') : Ranked s' := by
  cases he with
  | exit _ _ _ _ => exact ⟨h.sorted, h.waiting, h.chosen⟩
  | tick _ _ _ _ _ => exact ⟨h.sorted, h.waiting, h.chosen⟩

/-- **What is dispatched comes first.** -/
theorem Ranked.dispatches (h : Ranked s) (hm : Moves clk s s') (hcurr : s.currProcess = none)
    {x : PCB} (hx : s'.currProcess = some x) : (∃ y ∈ s.readyQueue, y.id = x.id) ∧
      ∀ y ∈ s.readyQueue, x.priority ≤ y.priority := by
  have hno : ∀ s₁ : State, s₁.currProcess = s.currProcess → s₁.currProcess ≠ some x := by
    intro s₁ he hx
    rw [he, hcurr] at hx
    exact nomatch hx
  cases hm with
  | @dispatch y q hpc _ hq l =>
    obtain rfl := Option.some.inj hx
    have hsorted := h.sorted
    rw [hq] at hsorted ⊢
    obtain ⟨hid, hprio, -⟩ := dispatched_fields y clk (s.forks + 1)
    rw [hid, hprio]
    exact ⟨⟨y, List.mem_cons_self, rfl⟩, le_of_sorted_cons hsorted⟩
  | reap _ _ _ _ | stop _ _ _ => exact nomatch hx
  | preempt _ hx' _ _ =>
    rw [hcurr] at hx'
    exact nomatch hx'
  | _ => exact absurd hx (hno _ rfl)

/-! ### The places of the processes -/

/-- The processes that are running, ready, or finished. -/
def pcbs (s : State) : List PCB := s.currProcess.toList ++ s.readyQueue ++ s.finished

/-- **Each process that was received is in one of these places**, once. -/
def Placed (s : State) : Prop := (s.pcbs.map PCB.id).Perm (s.received.map ProcessData.id)

theorem Placed.of_perm (h : Placed s) (hp : (s'.pcbs.map PCB.id).Perm (s.pcbs.map PCB.id))
    (hr : s'.received = s.received) : Placed s' := by
  rw [Placed, hr]
  exact hp.trans h

/-- **Preemption, dispatch and finish lose and duplicate no process.** -/
theorem Placed.moves (h : Placed s) (hm : Moves clk s s') : Placed s' := by
  cases hm with
  | @arrive msg _ _ _ _ =>
    -- the new process goes into the queue, between what is running and what is finished
    have hperm : (s.currProcess.toList ++ Queue.enqueuePriority s.readyQueue (createPCB msg) ++
        s.finished).Perm (createPCB msg :: s.pcbs) :=
      (((Queue.perm_enqueuePriority s.readyQueue _).append_left _).trans
        List.perm_middle).append_right _
    show ((s.currProcess.toList ++ Queue.enqueuePriority s.readyQueue (createPCB msg) ++
      s.finished).map PCB.id).Perm ((s.received ++ [msg]).map ProcessData.id)
    have hreceived : (s.received ++ [msg]).map ProcessData.id =
        s.received.map ProcessData.id ++ [msg.id] := List.map_append
    rw [hreceived]
    exact (hperm.map PCB.id).trans ((List.Perm.cons _ h).trans
      (List.perm_append_singleton _ _).symm)
  | @reap x _ hx _ _ =>
    refine h.of_perm ?_ rfl
    rw [pcbs, pcbs, hx, ← List.append_assoc, List.map_append]
    have hlast : ((s.readyQueue ++ s.finished ++ [reaped x clk s.shmRT]).map PCB.id).Perm
        ((x :: (s.readyQueue ++ s.finished)).map PCB.id) := by
      rw [List.map_append]
      exact List.perm_append_singleton _ _
    simpa using hlast
  | preempt _ hx _ _ =>
    refine h.of_perm ?_ rfl
    rw [pcbs, pcbs, hx]
    rfl
  | @dispatch x q _ hcurr hq _ =>
    refine h.of_perm (List.Perm.of_eq ?_) rfl
    rw [pcbs, pcbs, hcurr, hq]
    simp only [Option.toList_some, Option.toList_none, List.nil_append, List.cons_append,
      List.map_cons, (dispatched_fields x clk (s.forks + 1)).1]
  | @stop x _ hx _ =>
    refine h.of_perm ?_ rfl
    rw [pcbs, pcbs, hx]
    exact ((Queue.perm_enqueuePriority s.readyQueue (stopped x s.shmRT)).append_right
      s.finished).map PCB.id
  | _ => exact h.of_perm (List.Perm.refl _) rfl

theorem Placed.executes (h : Placed s) (he : Executes pid clk s s') : Placed s' := by
  cases he with
  | exit _ _ _ _ => exact h
  | tick _ _ _ _ _ => exact h

end State

namespace World

variable {w w' : World} {e : Event} {l : List ProcessData} {C : World → Event → Prop}

/-- **The processes of the input**: what has been sent has been received or is in the queue of
the scheduler, in this order, and what has not been sent is with the generator. -/
structure Conserved (l : List ProcessData) (w : World) : Prop where
  placed : w.sch.Placed
  sent : w.gen.sent = w.sch.received ++ w.sch.msgq.filter fun d => d.mtype = 1
  source : w.gen.sent ++ w.gen.queue = l

/-- What is received has been taken from the queue. -/
theorem received_moves (hm : State.Moves clk s s') :
    (s'.received ++ s'.msgq.filter fun d => d.mtype = 1) =
      s.received ++ s.msgq.filter fun d => d.mtype = 1 := by
  have hkeep : ∀ {d : ProcessData} {rest : List ProcessData},
      MsgQueue.rcv ProcessData.mtype (-5) s.msgq = some (d, rest) → d.mtype ≠ 1 →
      (rest.filter fun d => d.mtype = 1) = s.msgq.filter fun d => d.mtype = 1 := by
    intro d rest hrcv hd
    rw [MsgQueue.filter_of_rcv_neg (by decide) hrcv, if_neg hd, List.nil_append]
  cases hm with
  | @arrive d rest _ hrcv hd =>
    rw [MsgQueue.filter_of_rcv_neg (by decide) hrcv 1, if_pos hd, ← List.append_assoc]
  | sync _ hrcv hd _ => rw [hkeep hrcv (by rw [hd]; decide)]
  | last _ hrcv hd => rw [hkeep hrcv (by rw [hd]; decide)]
  | drop _ hrcv h1 => rw [hkeep hrcv h1]
  | _ => rfl

theorem received_executes (he : State.Executes pid clk s s') :
    s'.received = s.received ∧ s'.msgq = s.msgq := by
  cases he with
  | exit _ _ _ _ => exact ⟨rfl, rfl⟩
  | tick _ _ _ _ _ => exact ⟨rfl, rfl⟩

theorem Conserved.step (h : Conserved l w) (hl : ∀ d ∈ l, d.mtype = 1) (hs : Steps w e w') :
    Conserved l w' := by
  have hpost : ∀ {d : ProcessData} {g : Generator}, d.mtype ≠ 1 → g.sent = w.gen.sent →
      g.queue = w.gen.queue → Conserved l (w.post d g) := by
    intro d g hd hsent hq
    refine ⟨h.placed, ?_, by rw [← h.source, ← hsent, ← hq]; rfl⟩
    show g.sent = w.sch.received ++ (w.sch.msgq ++ [d]).filter _
    rw [hsent, h.sent, List.filter_append, List.filter_cons_of_neg (by simpa using hd),
      List.filter_nil, List.append_nil]
  cases hs with
  | tick => exact ⟨h.placed, h.sent, h.source⟩
  | sched hm => exact ⟨h.placed.moves hm, h.sent.trans (received_moves hm).symm, h.source⟩
  | child he =>
    obtain ⟨hr, hq⟩ := received_executes he
    refine ⟨h.placed.executes he, ?_, h.source⟩
    show _ = State.received _ ++ List.filter _ (State.msgq _)
    rw [hr, hq]
    exact h.sent
  | observe _ _ => exact ⟨h.placed, h.sent, h.source⟩
  | @send t d q _ hq _ =>
    have hd : d.mtype = 1 := by
      refine hl d ?_
      rw [← h.source, hq]
      exact List.mem_append_right _ List.mem_cons_self
    refine ⟨h.placed, ?_, ?_⟩
    · show w.gen.sent ++ [d] = w.sch.received ++ (w.sch.msgq ++ [d]).filter _
      rw [List.filter_append, List.filter_cons_of_pos (by simpa using hd), List.filter_nil,
        ← List.append_assoc, h.sent]
    · show (w.gen.sent ++ [d]) ++ q = l
      rw [← h.source, hq, List.append_assoc, List.singleton_append]
  | sync _ _ => exact hpost (show (2 : ℤ) ≠ 1 by decide) rfl rfl
  | last _ _ _ => exact hpost (show (5 : ℤ) ≠ 1 by decide) rfl rfl

theorem start_conserved (l : List ProcessData) (t : ℤ) : Conserved l (start l t) where
  placed := List.Perm.refl []
  sent := rfl
  source := rfl

/-- **What holds in every run.** -/
theorem conserved_of_reachable (h : system.Reachable w) :
    w.sch.Ranked ∧ ∃ l, CpuScheduler.World.Workload l ∧ Conserved l w := by
  refine h.invariant (P := fun w => w.sch.Ranked ∧
    ∃ l, CpuScheduler.World.Workload l ∧ Conserved l w) ?_ ?_
  · rintro w ⟨l, t, hl, -, rfl⟩
    exact ⟨⟨List.Pairwise.nil, fun _ => rfl, nofun⟩, l, hl, start_conserved l t⟩
  · rintro w w' ⟨hr, l, hl, hc⟩ ⟨e, hst, -⟩
    have hs := next_steps hst
    refine ⟨?_, l, hl, hc.step hl.mtype hs⟩
    cases hs with
    | sched hm => exact hr.moves hm
    | child he => exact hr.executes he
    | _ => exact ⟨hr.sorted, hr.waiting, hr.chosen⟩

/-- **HPF does not invert priorities.** In every run the ready queue is sorted; what `HPF_algo`
dispatches has the lowest priority value of all processes that are ready, and when it has
returned nobody who is ready comes before the running process; each process that was sent and
received is running, ready or finished, once; and no queue is read when it is empty. -/
theorem reachable_ordered (h : system.Reachable w) :
    w.sch.readyQueue.Pairwise (fun x y => x.priority ≤ y.priority) ∧
    (∀ s, w.sch.next w.clock = .ok s → w.sch.currProcess = none → ∀ x, s.currProcess = some x →
      (∃ y ∈ w.sch.readyQueue, y.id = x.id) ∧ ∀ y ∈ w.sch.readyQueue, x.priority ≤ y.priority) ∧
    (w.sch.pc = .permit → 0 < w.sch.now → ∀ x, w.sch.currProcess = some x →
      ∀ y ∈ w.sch.readyQueue, x.priority ≤ y.priority) ∧
    ((w.sch.currProcess.toList ++ w.sch.readyQueue ++ w.sch.finished).map PCB.id).Nodup ∧
    ((w.sch.currProcess.toList ++ w.sch.readyQueue ++ w.sch.finished).map PCB.id ++
      (w.sch.msgq.filter fun d => d.mtype = 1).map ProcessData.id).Perm
      (w.gen.sent.map ProcessData.id) ∧
    w.sch.next w.clock ≠ .error .underflow := by
  obtain ⟨hr, l, hl, hc⟩ := conserved_of_reachable h
  have hnodup : (w.sch.received.map ProcessData.id).Nodup := by
    have hids := hl.ids
    rw [← hc.source, hc.sent, List.map_append, List.map_append] at hids
    exact (List.nodup_append.mp (List.nodup_append.mp hids).1).1
  refine ⟨hr.sorted, fun s hs hcurr x hx => hr.dispatches (State.next_moves hs) hcurr hx,
    fun hpc hnow x hx => hr.chosen hpc hnow x hx, hc.placed.nodup_iff.mpr hnodup, ?_,
    State.next_ne_underflow w.sch w.clock⟩
  have hsent : w.gen.sent.map ProcessData.id = w.sch.received.map ProcessData.id ++
      (w.sch.msgq.filter fun d => d.mtype = 1).map ProcessData.id := by
    rw [hc.sent, List.map_append]
  rw [hsent]
  exact hc.placed.append_right _

/-! ### An explicit run -/

/-- A process that arrives at tick 1 with three ticks to execute, and a more urgent one that
arrives at tick 2 with one. -/
def urgent : List ProcessData :=
  [{ soleProcess 2 with priority := 5 },
    { soleProcess 2 with id := 8, arrival := 2, runtime := 1, priority := 1 }]

theorem workload_urgent : CpuScheduler.World.Workload urgent := by
  refine ⟨?_, ?_, ?_⟩ <;> decide

/-- The first process executes at tick 1, is stopped at tick 2, and waits for the second one. -/
def urgentRun : List Event := List.flatten
  [[.observe, .send, .sync], List.replicate 7 .sched, [.child 1, .tick],
    [.observe, .send, .sync, .last], List.replicate 8 .sched, [.tick],
    List.replicate 8 .sched, [.child 2, .child 2, .tick]]

/-- Up to here the second process has overtaken the first one. -/
theorem reachable_ordered_urgent : ∃ w, TransitionSystem.playAll next (start urgent 1) urgentRun =
      some w ∧ w.sch.currProcess.map PCB.id = some 8 ∧ w.sch.readyQueue.map PCB.id = [7] ∧
    w.sch.readyQueue.Pairwise (fun x y => x.priority ≤ y.priority) := by
  have hrun : (TransitionSystem.playAll next (start urgent 1) urgentRun).map (fun w =>
      (w.sch.currProcess.map PCB.id, w.sch.readyQueue.map PCB.id)) = some (some 8, [7]) := by
    decide +kernel
  obtain ⟨w, hw, he⟩ := Option.map_eq_some_iff.mp hrun
  simp only [Prod.mk.injEq] at he
  have hstart : system.Reachable (start urgent 1) :=
    .init ⟨urgent, 1, workload_urgent, by decide, rfl⟩
  have hreach := hstart.playAll next_step hw
  exact ⟨w, hw, he.1, he.2, (reachable_ordered hreach).1⟩

end World

end Hpf

end CpuScheduler
