import CpuScheduler.Hpf.Accounting

/-!
# How long anybody waits under HPF

Take a priority value, the level, and the processes whose value is at most the level. Nobody
else delays them for longer than it takes to be preempted, so they see the processor as if they
were alone: the time since the level was last idle (`CpuScheduler.Hpf.State.Idle`) is used up by
their own ticks, and by a tick here and there in which nothing executes. Each of those ticks is
paid for by one of them.

| a tick is lost | and paid for by |
|---|---|
| when a process is let go of | this process |
| when a process is preempted | the process that is dispatched next, for the first time |

The second line is why one payment is enough: a process that has been dispatched before is not
ahead of the one that is running (`CpuScheduler.Hpf.State.Urgency.overtakes`), so nobody preempts
twice. What the level still owes is `CpuScheduler.Hpf.State.debt`, and the edge of the turn and
the debt together never come after the time that the level started, with all that has come in
since (`CpuScheduler.Hpf.State.Owes`).
-/

namespace CpuScheduler

namespace Hpf

variable {s s' : State} {clk pid level D : ℤ} {x y : PCB} {q : List PCB}

namespace State

/-! ### What a level owes -/

/-- The processes that are running or ready. -/
def unfinished (s : State) : List PCB := s.currProcess.toList ++ s.readyQueue

/-- **Nobody at the level or before it is unfinished.** -/
def Idle (level : ℤ) (s : State) : Prop := ∀ x ∈ s.unfinished, level < x.priority

instance (level : ℤ) (s : State) : Decidable (Idle level s) :=
  inferInstanceAs (Decidable (∀ x ∈ s.unfinished, level < x.priority))

/-- What a process that is ready still costs: the time that remains, the tick in which it is let
go of, and one tick more before its first dispatch. -/
def owed (y : PCB) : ℤ := y.remainingTime + 1 + if y.pid = -1 then 1 else 0

/-- What those who are ready at the level cost. -/
def queueDebt (level : ℤ) (q : List PCB) : ℤ :=
  ((q.filter fun y => y.priority ≤ level).map owed).sum

/-- What the running process costs, if it is at the level. -/
def runDebt (level : ℤ) (s : State) : ℤ :=
  ((s.currProcess.toList.filter fun x => x.priority ≤ level).map fun _ => s.shmRT + 1).sum

/-- **What the level owes.** -/
def debt (level : ℤ) (s : State) : ℤ := s.runDebt level + queueDebt level s.readyQueue

/-- A tick that is lost already is paid for at the next dispatch, if it is the first one of its
process. -/
def grace (s : State) : ℤ :=
  if s.currProcess = none ∧ s.readyQueue.head?.map PCB.pid = some (-1) then 1 else 0

/-- Behind the gate that is closed, the tick of the turn is lost. -/
def lost (s : State) : ℤ := if s.pc = .gate ∧ s.now < s.contextSwitchUntil then 1 else 0

/-- **The level keeps its time**: unless it is idle, the edge and what is owed do not come after
`D`. -/
def Owes (level D : ℤ) (s : State) : Prop :=
  ¬Idle level s → max s.edge 1 + s.debt level + s.lost ≤ D + s.grace

theorem queueDebt_cons (level : ℤ) (y : PCB) (q : List PCB) : queueDebt level (y :: q) =
    (if y.priority ≤ level then owed y else 0) + queueDebt level q := by
  rw [queueDebt, queueDebt]
  by_cases hy : y.priority ≤ level
  · rw [List.filter_cons_of_pos (by simpa using hy), List.map_cons, List.sum_cons, if_pos hy]
  · rw [List.filter_cons_of_neg (by simpa using hy), if_neg hy, zero_add]

theorem queueDebt_enqueue (level : ℤ) (q : List PCB) (y : PCB) :
    queueDebt level (Queue.enqueuePriority q y) =
      (if y.priority ≤ level then owed y else 0) + queueDebt level q := by
  rw [← queueDebt_cons]
  exact (((Queue.perm_enqueuePriority q y).filter _).map _).sum_eq

theorem runDebt_none (hcur : s.currProcess = none) : s.runDebt level = 0 := by
  rw [runDebt, hcur]
  rfl

theorem runDebt_some (hx : s.currProcess = some x) :
    s.runDebt level = if x.priority ≤ level then s.shmRT + 1 else 0 := by
  rw [runDebt, hx, Option.toList_some]
  by_cases hle : x.priority ≤ level
  · rw [List.filter_cons_of_pos (by simpa using hle), List.filter_nil, List.map_singleton,
      List.sum_singleton, if_pos hle]
  · rw [List.filter_cons_of_neg (by simpa using hle), List.filter_nil, List.map_nil, List.sum_nil,
      if_neg hle]

theorem grace_some (hx : s.currProcess = some x) : s.grace = 0 := by
  rw [grace, hx]
  exact if_neg fun h => nomatch h.1

theorem grace_front (hcur : s.currProcess = none) (hq : s.readyQueue = y :: q) :
    s.grace = if y.pid = -1 then 1 else 0 := by
  rw [grace, hcur, hq, List.head?_cons, Option.map_some]
  simp only [true_and, Option.some.injEq]

theorem grace_nonneg (s : State) : 0 ≤ s.grace := by
  rw [grace]
  split_ifs
  · exact Int.one_nonneg
  · exact le_rfl

theorem lost_of_ne (hpc : s.pc ≠ .gate) : s.lost = 0 := if_neg fun h => hpc h.1

theorem idle_iff : Idle level s ↔ (∀ x, s.currProcess = some x → level < x.priority) ∧
    ∀ y ∈ s.readyQueue, level < y.priority := by
  simp only [Idle, unfinished, List.mem_append, Option.mem_toList, or_imp, forall_and]

/-- The first who is ready is at the level, if nobody is running and the level is not idle. -/
theorem front_urgent (hr : Ranked s) (hcur : s.currProcess = none) (hne : ¬Idle level s) :
    ∃ y q, s.readyQueue = y :: q ∧ y.priority ≤ level := by
  rw [idle_iff, hcur] at hne
  push Not at hne
  obtain ⟨z, hz, hle⟩ := hne (by simp)
  obtain ⟨y, q, hq⟩ := List.exists_cons_of_ne_nil (List.ne_nil_of_mem hz)
  have hsorted := hr.sorted
  rw [hq] at hsorted hz
  exact ⟨y, q, hq, (le_of_sorted_cons hsorted z hz).trans hle⟩

/-- So is the running process, if nobody who is ready comes before it. -/
theorem running_urgent (hx : s.currProcess = some x)
    (hfirst : ∀ y ∈ s.readyQueue, x.priority ≤ y.priority) (hne : ¬Idle level s) :
    x.priority ≤ level := by
  by_contra hlt
  refine hne (idle_iff.mpr ⟨fun z hz => ?_, fun y hy => (not_le.mp hlt).trans_le (hfirst y hy)⟩)
  exact Option.some.inj (hx.symm.trans hz) ▸ not_le.mp hlt

/-! ### Who comes before whom -/

/-- **The running process and those who are ready.** -/
structure Urgency (s : State) : Prop where
  /-- Who comes before the running process has not been dispatched yet, -/
  overtakes : ∀ x, s.currProcess = some x → ∀ y ∈ s.readyQueue, y.priority < x.priority →
    y.pid = -1
  /-- and from the end of `HPF_algo` to the next look at the messages there is nobody. -/
  settled : s.pc = .top ∨ s.pc = .finish ∨ s.pc = .reap ∨ s.pc = .gate →
    ∀ x, s.currProcess = some x → ∀ y ∈ s.readyQueue, x.priority ≤ y.priority
  yields : s.pc = .stop → ∀ x, s.currProcess = some x → ∃ y ∈ s.readyQueue, y.priority < x.priority
  /-- Nobody is dispatched at tick 0. -/
  begun : s.currProcess ≠ none ∨ s.pc = .algo → 0 < s.now
  /-- Before the first turn and behind the loop nobody is ready. -/
  early : s.lastTick = -1 → s.readyQueue = []
  left : s.pc = .exited → s.currProcess = none ∧ s.readyQueue = []
  /-- A context switch takes one tick. -/
  switch : s.contextSwitchUntil ≤ s.lastTick + 1
  expired : s.pc = .finish ∨ s.pc = .reap → s.contextSwitchUntil ≤ s.now

/-- A move that leaves the queue and the processor alone, to a cut behind the gate. -/
theorem Urgency.goto (h : Urgency s) (hcur : s'.currProcess = s.currProcess)
    (hq : s'.readyQueue = s.readyQueue) (hnow : s'.now = s.now) (hlast : s'.lastTick = s.lastTick)
    (hcsu : s'.contextSwitchUntil = s.contextSwitchUntil ∨
      (s'.contextSwitchUntil = -1 ∧ 0 ≤ s.lastTick))
    (hset : s'.pc = .top ∨ s'.pc = .finish ∨ s'.pc = .reap ∨ s'.pc = .gate →
      ∀ x, s.currProcess = some x → ∀ y ∈ s.readyQueue, x.priority ≤ y.priority)
    (hstop : s'.pc ≠ .stop) (halgo : s'.pc = .algo → 0 < s.now)
    (hleft : s'.pc = .exited → s.currProcess = none ∧ s.readyQueue = [])
    (hover : s'.pc = .finish ∨ s'.pc = .reap → s'.contextSwitchUntil ≤ s.now) : Urgency s' where
  overtakes := by
    rw [hcur, hq]
    exact h.overtakes
  settled hpc := by
    rw [hcur, hq]
    exact hset hpc
  yields hpc := absurd hpc hstop
  begun hc := by
    rw [hnow]
    rw [hcur] at hc
    exact hc.elim (fun hne => h.begun (Or.inl hne)) halgo
  early := by
    rw [hlast, hq]
    exact h.early
  left := by
    rw [hcur, hq]
    exact hleft
  switch := by
    rw [hlast]
    rcases hcsu with hc | ⟨hc, h0⟩
    · rw [hc]
      exact h.switch
    · omega
  expired := by
    rw [hnow]
    exact hover

/-- **The scheduler keeps to the order.** -/
theorem Urgency.moves (h : Urgency s) (ht : Timed clk s) (hr : Ranked s) (hm : Moves clk s s') :
    Urgency s' := by
  have hset : s.pc = .top ∨ s.pc = .finish ∨ s.pc = .reap ∨ s.pc = .gate → _ := h.settled
  have hin : s.pc.inTurn = true → 0 ≤ s.lastTick := fun hin => by
    rw [(ht.turn hin).2]
    exact ht.tick
  -- behind the gate no context switch goes on
  have hbehind : ∀ s₁ : State, s.pc.inTurn = true → s₁.currProcess = s.currProcess →
      s₁.readyQueue = s.readyQueue → s₁.now = s.now → s₁.lastTick = s.lastTick →
      (s₁.contextSwitchUntil = s.contextSwitchUntil ∨ s₁.contextSwitchUntil = -1) →
      s₁.pc = behindReceive s.now → Urgency s₁ := by
    intro s₁ hturn hcur hq hnow hlast hcsu hpc
    have hcsu' := hcsu.imp_right fun hc => And.intro hc (hin hturn)
    rcases behindReceive_cases s.now with ⟨hpos, hb⟩ | ⟨-, hb⟩
    · rw [hb] at hpc
      exact h.goto hcur hq hnow hlast hcsu' (by rw [hpc]; simp) (by rw [hpc]; simp)
        (fun _ => hpos) (by rw [hpc]; simp) (by rw [hpc]; simp)
    · rw [hb] at hpc
      exact h.goto hcur hq hnow hlast hcsu' (by rw [hpc]; simp) (by rw [hpc]; simp)
        (by rw [hpc]; simp) (by rw [hpc]; simp) (by rw [hpc]; simp)
  cases hm with
  | spin _ _ _ => exact h
  | leave hpc hgo =>
    refine h.goto rfl rfl rfl rfl (Or.inl rfl) (by simp) (by simp) (by simp) (fun _ => ?_) (by simp)
    cases hcur : s.currProcess with
    | some x => simp [goesOn, hcur] at hgo
    | none =>
      cases hq : s.readyQueue with
      | cons y q => simp [goesOn, hq] at hgo
      | nil => exact ⟨rfl, rfl⟩
  | begin hpc hgo hnew =>
    have h0 := ht.nonneg
    have hsw := h.switch
    have hnext : s.lastTick + 1 ≤ clk ∧ s.now ≤ clk ∨ s.currProcess = none ∧ s.lastTick = -1 := by
      rcases ht.top hpc with ⟨hl, hnone⟩ | ⟨hl, hclk⟩
      · exact Or.inr ⟨hnone, hl⟩
      · exact Or.inl (by omega)
    refine ⟨h.overtakes, fun _ => hset (Or.inl hpc), by simp, fun hc => ?_, fun hl => ?_, by simp,
      ?_, fun _ => ?_⟩
    · have hrun : s.currProcess ≠ none := hc.resolve_right (by simp)
      have := h.begun (Or.inl hrun)
      rcases hnext with hnext | ⟨hnone, -⟩
      · exact this.trans_le hnext.2
      · exact absurd hnone hrun
    · have hl : clk = -1 := hl
      omega
    · show s.contextSwitchUntil ≤ clk + 1
      rcases hnext with hnext | ⟨-, hnext⟩ <;> omega
    · show s.contextSwitchUntil ≤ clk
      rcases hnext with hnext | ⟨-, hnext⟩ <;> omega
  | running hpc hno =>
    exact h.goto rfl rfl rfl rfl (Or.inl rfl) (fun _ => hset (Or.inr (Or.inl hpc))) (by simp)
      (by simp) (by simp) (by simp)
  | signalled hpc hx hsig =>
    exact h.goto rfl rfl rfl rfl (Or.inl rfl) (fun _ => hset (Or.inr (Or.inl hpc))) (by simp)
      (by simp) (by simp) (fun _ => h.expired (Or.inl hpc))
  | @reap x hpc hx hchild l =>
    obtain ⟨hclk, hl⟩ := ht.turn (by rw [hpc]; rfl)
    refine ⟨by simp, by simp, by simp, by simp, h.early, by simp, ?_, by simp⟩
    show clk + 1 ≤ s.lastTick + 1
    omega
  | closed hpc hcsu hnow =>
    exact h.goto rfl rfl rfl rfl (Or.inl rfl) (fun _ => hset (Or.inr (Or.inr (Or.inr hpc))))
      (by simp) (by simp) (by simp) (by simp)
  | listen hpc hcsu hrec =>
    exact h.goto rfl rfl rfl rfl (Or.inr ⟨rfl, hin (by rw [hpc]; rfl)⟩) (by simp) (by simp)
      (by simp) (by simp) (by simp)
  | skip hpc hcsu hrec =>
    exact hbehind _ (by rw [hpc]; rfl) rfl rfl rfl rfl (Or.inr rfl) rfl
  | @arrive d rest hpc hrcv h1 =>
    refine ⟨fun x hx y hy hlt => ?_, by simp [hpc], by simp [hpc], h.begun, fun hl => ?_,
      by simp [hpc], h.switch, by simp [hpc]⟩
    · rcases Queue.mem_enqueuePriority.mp hy with rfl | hy
      · rfl
      · exact h.overtakes x hx y hy hlt
    · have hl : s.lastTick = -1 := hl
      have := hin (by rw [hpc]; rfl)
      omega
  | sync hpc hrcv h2 hnew =>
    exact hbehind _ (by rw [hpc]; rfl) rfl rfl rfl rfl (Or.inl rfl) rfl
  | last hpc hrcv h5 =>
    exact hbehind _ (by rw [hpc]; rfl) rfl rfl rfl rfl (Or.inl rfl) rfl
  | drop hpc hrcv h1 =>
    exact h.goto rfl rfl rfl rfl (Or.inl rfl) (by simp [hpc]) (by simp [hpc]) (by simp [hpc])
      (by simp [hpc]) (by simp [hpc])
  | idle hpc hrun hnone =>
    exact h.goto rfl rfl rfl rfl (Or.inl rfl) (by simp) (by simp) (by simp) (by simp) (by simp)
  | @preempt x y q hpc hx hq hlt =>
    refine ⟨fun z hz y hy => ?_, by simp, fun _ z hz => ⟨y, ?_, ?_⟩, fun _ => h.begun (Or.inr hpc),
      h.early, by simp, h.switch, by simp⟩
    · obtain rfl := Option.some.inj hz
      exact h.overtakes x hx y hy
    · show y ∈ s.readyQueue
      rw [hq]
      exact List.mem_cons_self
    · obtain rfl := Option.some.inj hz
      exact hlt
  | @dispatch x q hpc hcurr hq l =>
    have hsorted := hr.sorted
    rw [hq] at hsorted
    refine ⟨fun z hz y hy hlt => ?_, by simp, by simp, fun _ => h.begun (Or.inr hpc), fun hl => ?_,
      by simp, h.switch, by simp⟩
    · obtain rfl := Option.some.inj hz
      rw [(dispatched_fields x clk (s.forks + 1)).2.1] at hlt
      exact absurd ((Stable.sorted_cons.mp hsorted).1 y hy) (not_le.mpr hlt)
    · have hl : s.lastTick = -1 := hl
      have := hin (by rw [hpc]; rfl)
      omega
  | @stop x hpc hx l =>
    refine ⟨by simp, by simp, by simp, by simp, fun hl => ?_, by simp, h.switch, by simp⟩
    have hl : s.lastTick = -1 := hl
    have := hin (by rw [hpc]; rfl)
    omega
  | waitStart hpc =>
    exact h.goto rfl rfl rfl rfl (Or.inl rfl) (by simp) (by simp) (by simp) (by simp) (by simp)
  | waited hpc hc =>
    exact h.goto rfl rfl rfl rfl (Or.inl rfl) (by simp) (by simp) (by simp) (by simp) (by simp)
  | permit hpc =>
    refine h.goto rfl rfl rfl rfl (Or.inl rfl) (fun _ x hx => ?_) (by simp) (by simp) (by simp)
      (by simp)
    exact hr.chosen hpc (h.begun (Or.inl (by rw [hx]; simp))) x hx

/-! ### The edge and the debt -/

/-- What these processes cost the level when they come in. -/
def cost (level : ℤ) (l : List ProcessData) : ℤ :=
  ((l.filter fun d => d.priority ≤ level).map fun d => d.runtime + 2).sum

theorem cost_append (level : ℤ) (l r : List ProcessData) :
    cost level (l ++ r) = cost level l + cost level r := by
  rw [cost, List.filter_append, List.map_append, List.sum_append, cost, cost]

theorem cost_singleton (level : ℤ) (d : ProcessData) :
    cost level [d] = if d.priority ≤ level then d.runtime + 2 else 0 := by
  rw [cost]
  by_cases hd : d.priority ≤ level
  · rw [List.filter_cons_of_pos (by simpa using hd), List.filter_nil, List.map_singleton,
      List.sum_singleton, if_pos hd]
  · rw [List.filter_cons_of_neg (by simpa using hd), List.filter_nil, List.map_nil, List.sum_nil,
      if_neg hd]

theorem owed_createPCB (d : ProcessData) : owed (createPCB d) = d.runtime + 2 := by
  show d.runtime + 1 + (if (-1 : ℤ) = -1 then 1 else 0) = d.runtime + 2
  rw [if_pos rfl, add_assoc]
  rfl

/-- An idle level owes nothing. -/
theorem Idle.debt_eq_zero (h : Idle level s) : s.debt level = 0 := by
  obtain ⟨hrun, hready⟩ := idle_iff.mp h
  have hq : queueDebt level s.readyQueue = 0 := by
    rw [queueDebt, List.filter_eq_nil_iff.mpr fun y hy => by simpa using hready y hy]
    rfl
  have hr : s.runDebt level = 0 := by
    cases hcur : s.currProcess with
    | none => exact runDebt_none hcur
    | some x => rw [runDebt_some hcur, if_neg (not_le.mpr (hrun x hcur))]
  rw [debt, hq, hr, add_zero]

/-- A move that leaves the queue and the processor alone. -/
theorem Owes.goto (h : Owes level D s) (hcur : s'.currProcess = s.currProcess)
    (hq : s'.readyQueue = s.readyQueue) (hrt : s'.shmRT = s.shmRT)
    (hedge : ¬Idle level s → max s'.edge 1 + s'.lost ≤ max s.edge 1 + s.lost) :
    Owes level D s' := by
  intro hne
  have hne' : ¬Idle level s := by
    rwa [Idle, unfinished, hcur, hq] at hne
  have hdebt : s'.debt level = s.debt level := by
    rw [debt, debt, runDebt, runDebt, hcur, hq, hrt]
  have hgrace : s'.grace = s.grace := by
    rw [grace, grace, hcur, hq]
  have := hedge hne'
  have := h hne'
  rw [hdebt, hgrace]
  omega

/-- Who comes in goes to the front, or the front stays. -/
theorem head_enqueuePriority (q : List PCB) (y : PCB) :
    (Queue.enqueuePriority q y).head? = some y ∨
      (Queue.enqueuePriority q y).head? = q.head? := by
  cases q with
  | nil => exact Or.inl rfl
  | cons z q =>
    rw [Queue.enqueuePriority]
    split_ifs
    · exact Or.inl rfl
    · exact Or.inr rfl

/-- **A process comes in.** If the level was idle, its time starts. -/
theorem Owes.arrive (h : Owes level D s) (ht : Timed clk s) (hpc : s.pc = .receive)
    (hcur : s'.currProcess = s.currProcess) (hrt : s'.shmRT = s.shmRT)
    {d : ProcessData} (hq : s'.readyQueue = Queue.enqueuePriority s.readyQueue (createPCB d))
    (hpc' : s'.pc = s.pc) (hl' : s'.lastTick = s.lastTick) :
    Owes level ((if Idle level s then max s.now 1 else D) + cost level [d]) s' := by
  intro hne
  have hin : s.pc.inTurn = true := by
    rw [hpc]
    rfl
  have hE : s.edge = s.now :=
    (edge_inTurn hin (by simp [hpc])).trans (ht.turn hin).2
  have hE' : s'.edge = s.edge := by
    rw [edge_inTurn (hpc' ▸ hin) (by simp [hpc', hpc]), edge_inTurn hin (by simp [hpc]), hl']
  have hdebt : s'.debt level = s.debt level + cost level [d] := by
    have hprice : (if (createPCB d).priority ≤ level then owed (createPCB d) else 0) =
        cost level [d] := by
      rw [owed_createPCB, cost_singleton]
      rfl
    rw [debt, debt, hq, queueDebt_enqueue, hprice, runDebt, hcur, hrt, ← runDebt]
    ring
  have hgrace : s.grace ≤ s'.grace := by
    rw [grace, grace, hcur, hq]
    split_ifs with h₁ h₂
    · exact le_rfl
    · -- the new process has not been dispatched either
      refine absurd ⟨h₁.1, ?_⟩ h₂
      rcases head_enqueuePriority s.readyQueue (createPCB d) with hh | hh
      · rw [hh]
        rfl
      · rw [hh]
        exact h₁.2
    · exact Int.zero_le_ofNat 1
    · exact le_rfl
  rw [hE', hdebt, lost_of_ne (by simp [hpc', hpc])]
  split_ifs with hidle
  · have := s'.grace_nonneg
    rw [hidle.debt_eq_zero, hE]
    omega
  · have := h hidle
    rw [lost_of_ne (by simp [hpc])] at this
    omega

/-- An idle level stays idle, if nobody comes in. -/
theorem Idle.moves (h : Idle level s) (hm : Moves clk s s') (hrec : s'.received = s.received) :
    Idle level s' := by
  obtain ⟨hrun, hready⟩ := idle_iff.mp h
  cases hm with
  | arrive => simp at hrec
  | reap _ hx _ _ => exact idle_iff.mpr ⟨by simp, hready⟩
  | @preempt x _ _ _ hx _ _ =>
    refine idle_iff.mpr ⟨fun z hz => ?_, hready⟩
    exact Option.some.inj hz ▸ hrun x hx
  | @dispatch x q _ _ hq _ =>
    refine idle_iff.mpr ⟨fun z hz => ?_, fun y hy => hready y ?_⟩
    · rw [← Option.some.inj hz, (dispatched_fields x clk (s.forks + 1)).2.1]
      exact hready x (by rw [hq]; exact List.mem_cons_self)
    · rw [hq]
      exact List.mem_cons_of_mem x hy
  | @stop x _ hx _ =>
    refine idle_iff.mpr ⟨by simp, fun y hy => ?_⟩
    rcases Queue.mem_enqueuePriority.mp hy with rfl | hy
    · exact hrun x hx
    · exact hready y hy
  | _ => exact h

/-- When the running process is put back, the first in the ready queue has not been dispatched
yet. -/
theorem Urgency.grace_stopped (hu : Urgency s) (hr : Ranked s) (hpc : s.pc = .stop)
    (hx : s.currProcess = some x) (hcur : s'.currProcess = none)
    (hqueue : s'.readyQueue = Queue.enqueuePriority s.readyQueue (stopped x s.shmRT)) :
    s'.grace = 1 := by
  obtain ⟨y, hy, hlt⟩ := hu.yields hpc x hx
  have hsorted : Stable.Sorted PCB.priority s'.readyQueue := by
    rw [hqueue]
    exact Queue.sorted_priority hr.sorted
  have hmem : ∀ z, z ∈ s'.readyQueue ↔ z = stopped x s.shmRT ∨ z ∈ s.readyQueue := by
    rw [hqueue]
    exact fun z => Queue.mem_enqueuePriority
  obtain ⟨z, q, hq⟩ := List.exists_cons_of_ne_nil
    (List.ne_nil_of_mem ((hmem y).mpr (Or.inr hy)))
  have hzx : z.priority < x.priority := by
    rw [hq] at hsorted hmem
    exact (le_of_sorted_cons hsorted y ((hmem y).mpr (Or.inr hy))).trans_lt hlt
  have hz : z ∈ s.readyQueue := by
    refine ((hmem z).mp (by rw [hq]; exact List.mem_cons_self)).resolve_left ?_
    rintro rfl
    exact lt_irrefl _ hzx
  rw [grace_front hcur hq, if_pos (hu.overtakes x hx z hz hzx)]

/-- **The scheduler keeps the time of the level**, while nobody comes in. -/
theorem Owes.moves (h : Owes level D s) (ht : Timed clk s) (ha : Attended clk s) (hf : Forked s)
    (hr : Ranked s) (hu : Urgency s) (hm : Moves clk s s') (hrec : s'.received = s.received) :
    Owes level D s' := by
  -- a move inside a turn
  have hin : ∀ s₁ : State, s.pc.inTurn = true → s.pc ≠ .waitStart → s₁.pc.inTurn = true →
      s₁.pc ≠ .waitStart → s₁.lastTick = s.lastTick → s₁.edge = s.edge := by
    intro s₁ h1 h2 h3 h4 hl
    rw [edge_inTurn h1 h2, edge_inTurn h3 h4, hl]
  -- behind the gate, where `HPF_algo` is not called at tick 0
  have hbehind : ∀ s₁ : State, s.pc.inTurn = true → s.pc ≠ .waitStart →
      s₁.pc = behindReceive s.now → s₁.lastTick = s.lastTick →
      s₁.currProcess = s.currProcess → max s₁.edge 1 ≤ max s.edge 1 ∧ s₁.lost = 0 := by
    intro s₁ h1 h2 hpc hl hcur
    have hE := edge_inTurn h1 h2
    rcases behindReceive_cases s.now with ⟨-, hb⟩ | ⟨h0, hb⟩
    · rw [hE, edge_inTurn (s := s₁) (by rw [hpc, hb]; rfl) (by rw [hpc, hb]; simp), hl]
      exact ⟨le_rfl, lost_of_ne (by rw [hpc, hb]; simp)⟩
    · have hE' : s₁.edge ≤ s.lastTick + 1 := by
        rw [edge, hpc, hb, hl]
        dsimp only
        split_ifs
        · exact Int.le_add_one le_rfl
        · exact le_rfl
      have := (ht.turn h1).2
      exact ⟨by omega, lost_of_ne (by rw [hpc, hb]; simp)⟩
  have hlost : 0 ≤ s.lost := by
    rw [lost]
    split_ifs
    · exact Int.one_nonneg
    · exact le_rfl
  cases hm with
  | spin hpc hgo hold => exact h
  | leave hpc hgo =>
    refine h.goto rfl rfl rfl fun _ => ?_
    have hE : State.edge { s with pc := .exited } = s.edge := by rw [edge, edge, hpc]
    rw [hE, lost_of_ne (by simp)]
    omega
  | begin hpc hgo hnew =>
    refine h.goto rfl rfl rfl fun hne => ?_
    have hsem : s.sem = 0 := ha.sem.resolve_right fun hs => hnew hs.2.2.1
    have hE : s.edge = s.lastTick + 1 := by
      rw [edge, hpc, hsem]
      exact sub_zero _
    have hE' : State.edge { s with lastTick := clk, now := clk, pc := .finish } = clk := rfl
    have hnext : clk = s.lastTick + 1 := by
      rcases ht.top hpc with ⟨hl, hnone⟩ | ⟨hl, hclk⟩
      · -- before the first turn nobody has come in
        refine absurd (idle_iff.mpr ⟨by simp [hnone], ?_⟩) hne
        rw [hu.early hl]
        exact List.forall_mem_nil _
      · omega
    rw [hE, hE', hnext, lost_of_ne (by simp)]
    omega
  | running hpc hno =>
    refine h.goto rfl rfl rfl fun _ => ?_
    have hE := hin { s with pc := .gate } (by rw [hpc]; rfl) (by simp [hpc]) rfl (by simp) rfl
    have hlost' : State.lost { s with pc := .gate } = 0 := by
      refine if_neg fun hc => ?_
      exact absurd hc.2 (not_lt.mpr (hu.expired (Or.inl hpc)))
    rw [hE, hlost']
    omega
  | signalled hpc hx hsig =>
    refine h.goto rfl rfl rfl fun _ => ?_
    rw [hin { s with processFinishedSignal := false, pc := .reap } (by rw [hpc]; rfl)
      (by simp [hpc]) rfl (by simp) rfl, lost_of_ne (by simp)]
    omega
  | @reap x hpc hx hchild l =>
    intro hne
    -- the process that is let go of pays for the tick
    obtain ⟨y, hy, hle⟩ : ∃ y ∈ s.readyQueue, y.priority ≤ level := by
      by_contra hno
      push Not at hno
      exact hne (idle_iff.mpr ⟨by simp, hno⟩)
    have hxle : x.priority ≤ level :=
      (hu.settled (Or.inr (Or.inr (Or.inl hpc))) x hx y hy).trans hle
    have hne' : ¬Idle level s := fun hidle =>
      absurd ((idle_iff.mp hidle).1 x hx) (not_lt.mpr hxle)
    have hb := h hne'
    obtain ⟨c, -, -, -, hpos, -⟩ := ha.running x hx
    rw [debt, runDebt_some hx, if_pos hxle, grace_some hx, lost_of_ne (by simp [hpc])] at hb
    generalize hs₁ : ({ s with
        currProcess := none
        contextSwitchUntil := clk + 1
        log := l
        perf := RRState.perfOf s.perf (reaped x clk s.shmRT) clk
        child := Function.update s.child x.pid none
        finished := s.finished ++ [reaped x clk s.shmRT]
        pc := .gate } : State) = s₁
    have hE := hin s₁ (by rw [hpc]; rfl) (by simp [hpc]) (by rw [← hs₁]; rfl) (by simp [← hs₁])
      (by rw [← hs₁])
    have hdebt : s₁.debt level = queueDebt level s.readyQueue := by
      rw [debt, runDebt_none (by rw [← hs₁]), zero_add, ← hs₁]
    have hone : s₁.lost ≤ 1 := by
      rw [lost]
      split_ifs
      · exact le_rfl
      · exact Int.one_nonneg
    have := s₁.grace_nonneg
    rw [hE, hdebt]
    omega
  | closed hpc hcsu hnow =>
    refine h.goto rfl rfl rfl fun _ => ?_
    have hE := edge_inTurn (s := s) (by rw [hpc]; rfl) (by simp [hpc])
    have hE' : State.edge { s with pc := .top } = s.lastTick + 1 - s.sem := rfl
    have hone : s.lost = 1 := if_pos ⟨hpc, hnow⟩
    rw [hE, hE', hone, ha.sem_eq_zero (by simp [hpc]), lost_of_ne (by simp)]
    push_cast
    omega
  | listen hpc hcsu hrec =>
    refine h.goto rfl rfl rfl fun _ => ?_
    rw [hin { s with contextSwitchUntil := -1, pc := .receive } (by rw [hpc]; rfl) (by simp [hpc])
      rfl (by simp) rfl, lost_of_ne (by simp)]
    omega
  | skip hpc hcsu hrec =>
    refine h.goto rfl rfl rfl fun _ => ?_
    obtain ⟨hE, hl⟩ := hbehind { s with contextSwitchUntil := -1, pc := behindReceive s.now }
      (by rw [hpc]; rfl) (by simp [hpc]) rfl rfl rfl
    rw [hl]
    omega
  | arrive => simp at hrec
  | @sync d rest hpc hrcv h2 hnew =>
    refine h.goto rfl rfl rfl fun _ => ?_
    obtain ⟨hE, hl⟩ := hbehind { s with msgq := rest, pc := behindReceive s.now }
      (by rw [hpc]; rfl) (by simp [hpc]) rfl rfl rfl
    rw [hl]
    omega
  | @last d rest hpc hrcv h5 =>
    refine h.goto rfl rfl rfl fun _ => ?_
    obtain ⟨hE, hl⟩ := hbehind { s with
      msgq := rest, receivingProcesses := false, pc := behindReceive s.now } (by rw [hpc]; rfl)
      (by simp [hpc]) rfl rfl rfl
    rw [hl]
    omega
  | drop hpc hrcv h1 => exact h.goto rfl rfl rfl fun _ => le_rfl
  | idle hpc hrun hnone =>
    refine h.goto rfl rfl rfl fun hne => ?_
    -- somebody is running, since the level is not idle
    have hsome : s.currProcess ≠ none := by
      intro hcur
      obtain ⟨y, q, hq, -⟩ := front_urgent hr hcur hne
      rw [hnone hcur] at hq
      simp at hq
    have hE := edge_inTurn (s := s) (by rw [hpc]; rfl) (by simp [hpc])
    have hE' : State.edge { s with pc := .permit } = s.lastTick :=
      (edge_permit (s := { s with pc := .permit }) rfl).2 hsome
    rw [hE, hE', lost_of_ne (by simp)]
    omega
  | @preempt x y q hpc hx hq hlt =>
    intro hne
    have hne' : ¬Idle level s := fun hidle => by
      obtain ⟨hrun, hready⟩ := idle_iff.mp hidle
      refine hne (idle_iff.mpr ⟨fun z hz => ?_, hready⟩)
      exact Option.some.inj hz ▸ hrun x hx
    have hb := h hne'
    rw [debt, runDebt_some hx, grace_some hx, lost_of_ne (by simp [hpc])] at hb
    rw [hin { s with currProcess := some { x with lastStopped := clk }, pc := .stop }
      (by rw [hpc]; rfl) (by simp [hpc]) rfl (by simp) rfl, debt, runDebt_some rfl, grace_some rfl,
      lost_of_ne (by simp)]
    exact hb
  | @dispatch x q hpc hcurr hq l =>
    intro hne
    have hne' : ¬Idle level s := fun hidle => by
      obtain ⟨-, hready⟩ := idle_iff.mp hidle
      rw [hq] at hready
      refine hne (idle_iff.mpr ⟨fun z hz => ?_, fun y hy => hready y (List.mem_cons_of_mem x hy)⟩)
      rw [← Option.some.inj hz, (dispatched_fields x clk (s.forks + 1)).2.1]
      exact hready x List.mem_cons_self
    -- the first dispatch of a process pays for a tick
    obtain ⟨y, q', hq', hle⟩ := front_urgent hr hcurr hne'
    obtain ⟨rfl, rfl⟩ := List.cons.inj (hq.symm.trans hq')
    have hb := h hne'
    rw [debt, runDebt_none hcurr, hq, queueDebt_cons, if_pos hle, owed, grace_front hcurr hq,
      lost_of_ne (by simp [hpc])] at hb
    generalize hs₁ : ({ s with
        readyQueue := q
        shmRT := x.remainingTime
        log := l
        forks := if x.pid = -1 then s.forks + 1 else s.forks
        child := Function.update s.child (dispatched x clk (s.forks + 1)).pid
          (childOf x (s.child x.pid))
        currProcess := some (dispatched x clk (s.forks + 1))
        pc := .permit } : State) = s₁
    have hcur₁ : s₁.currProcess = some (dispatched x clk (s.forks + 1)) := by rw [← hs₁]
    have hE : s.edge = s.lastTick := edge_inTurn (by rw [hpc]; rfl) (by simp [hpc])
    have hE' : s₁.edge = s.lastTick := by
      rw [(edge_permit (s := s₁) (by rw [← hs₁])).2 (by simp [hcur₁]), ← hs₁]
    have hdebt : s₁.debt level = x.remainingTime + 1 + queueDebt level q := by
      rw [debt, runDebt_some hcur₁, (dispatched_fields x clk (s.forks + 1)).2.1, if_pos hle, ← hs₁]
    rw [hE', hdebt, grace_some hcur₁, lost_of_ne (by simp [← hs₁])]
    omega
  | @stop x hpc hx l =>
    intro hne
    have hne' : ¬Idle level s := fun hidle => by
      obtain ⟨hrun, hready⟩ := idle_iff.mp hidle
      refine hne (idle_iff.mpr ⟨by simp, fun y hy => ?_⟩)
      rcases Queue.mem_enqueuePriority.mp hy with rfl | hy
      · exact hrun x hx
      · exact hready y hy
    have hb := h hne'
    rw [debt, runDebt_some hx, grace_some hx, lost_of_ne (by simp [hpc])] at hb
    generalize hs₁ : ({ s with
        child := Function.update s.child x.pid
          ((s.child x.pid).map fun c => { c with stopped := true })
        log := l
        readyQueue := Queue.enqueuePriority s.readyQueue (stopped x s.shmRT)
        currProcess := none
        pc := .waitStart } : State) = s₁
    have hE : s.edge = s.lastTick := edge_inTurn (by rw [hpc]; rfl) (by simp [hpc])
    have hE' : s₁.edge = s.lastTick + 1 := by
      rw [← hs₁, edge]
      dsimp only
      rw [ha.sem_eq_zero (by simp [hpc])]
      exact sub_zero _
    have hpid : ¬x.pid = -1 := hf.started x hx
    have howed : owed (stopped x s.shmRT) = s.shmRT + 1 := by
      show s.shmRT + 1 + (if x.pid = -1 then 1 else 0) = s.shmRT + 1
      rw [if_neg hpid, add_zero]
    have hdebt : s₁.debt level = (if x.priority ≤ level then s.shmRT + 1 else 0) +
        queueDebt level s.readyQueue := by
      rw [debt, runDebt_none (by rw [← hs₁]), zero_add, ← hs₁, queueDebt_enqueue, howed]
      rfl
    have hgrace : s₁.grace = 1 :=
      hu.grace_stopped hr hpc hx (by rw [← hs₁]) (by rw [← hs₁])
    rw [hE', hdebt, hgrace, lost_of_ne (by simp [← hs₁])]
    omega
  | waitStart hpc =>
    refine h.goto rfl rfl rfl fun _ => ?_
    have hE : State.edge { s with pc := .wait (clk + 1) } = s.edge := by rw [edge, edge, hpc]
    rw [hE, lost_of_ne (by simp)]
    omega
  | @waited c hpc hc =>
    refine h.goto rfl rfl rfl fun _ => ?_
    have hE : State.edge { s with pc := .permit } = s.edge := by
      rw [edge, edge, hpc]
      dsimp only
      rw [hr.waiting (Or.inr ⟨c, hpc⟩), ha.sem_eq_zero (by simp [hpc]), Nat.cast_zero, sub_zero]
      rfl
    rw [hE, lost_of_ne (by simp)]
    omega
  | permit hpc =>
    refine h.goto rfl rfl rfl fun _ => ?_
    have hsem := ha.sem_eq_zero (by simp [hpc])
    have hE : State.edge { s with
        sem := if s.currProcess.isSome then 1 else s.sem, pc := .top } = s.edge := by
      rw [edge, edge, hpc]
      dsimp only
      split_ifs
      · exact add_sub_cancel_right _ _
      · rw [hsem, Nat.cast_zero, sub_zero]
    rw [hE, lost_of_ne (by simp)]
    omega

/-- **A child keeps it, too**: the running process is at the level, and pays for its tick. -/
theorem Owes.executes (h : Owes level D s) (ht : Timed clk s) (ha : Attended clk s)
    (hu : Urgency s) (he : Executes pid clk s s') : Owes level D s' := by
  cases he with
  | exit hc hgo hlive hdone => exact h.goto rfl rfl rfl fun _ => le_rfl
  | @tick c hc hgo hlive hleft hsem =>
    intro hne
    have hne' : ¬Idle level s := hne
    obtain ⟨hone, hpc, hclk, hrun, -⟩ := ha.sem.resolve_left hsem
    obtain ⟨x, hx⟩ := Option.ne_none_iff_exists'.mp hrun
    have hxle := running_urgent hx (hu.settled (Or.inl hpc) x hx) hne'
    obtain ⟨c', hc', -, hrem, -⟩ := ha.running x hx
    have hcx : c.remainingtime = s.shmRT := by
      rcases ha.others pid c hc with hstop | ⟨z, hz, rfl⟩
      · exact absurd (hgo.symm.trans hstop) Bool.false_ne_true
      · obtain rfl := Option.some.inj (hx.symm.trans hz)
        obtain rfl := Option.some.inj (hc.symm.trans hc')
        exact hrem
    have hb := h hne'
    rw [debt, runDebt_some hx, if_pos hxle, grace_some hx, lost_of_ne (by simp [hpc])] at hb
    generalize hs₁ : ({ s with
        sem := s.sem - 1
        shmRT := c.remainingtime - 1
        child := Function.update s.child pid (some { c with remainingtime := c.remainingtime - 1 })
        executed := s.executed ++ [(pid, clk)] } : State) = s₁
    have hcur₁ : s₁.currProcess = some x := by rw [← hs₁, hx]
    have hpos : 0 < s.lastTick := by
      have hnow := hu.begun (Or.inl hrun)
      rcases ht.top hpc with ⟨-, hnone⟩ | ⟨hl, -⟩
      · exact absurd hnone hrun
      · omega
    have hE : s.edge = s.lastTick := by
      rw [edge, hpc, hone]
      exact add_sub_cancel_right _ _
    have hE' : s₁.edge = s.lastTick + 1 := by
      rw [← hs₁, edge]
      dsimp only
      rw [hpc, hone]
      exact sub_zero _
    have hdebt : s₁.debt level = s.shmRT + queueDebt level s.readyQueue := by
      rw [debt, runDebt_some hcur₁, if_pos hxle, ← hs₁, hcx]
      ring
    rw [hE', hdebt, grace_some hcur₁, lost_of_ne (by simp [← hs₁, hpc])]
    omega

/-- The children do not touch the order. -/
theorem Urgency.executes (h : Urgency s) (he : Executes pid clk s s') : Urgency s' := by
  cases he with
  | exit _ _ _ _ =>
    exact ⟨h.overtakes, h.settled, h.yields, h.begun, h.early, h.left, h.switch, h.expired⟩
  | tick _ _ _ _ _ =>
    exact ⟨h.overtakes, h.settled, h.yields, h.begun, h.early, h.left, h.switch, h.expired⟩

/-- While the level is not idle, the clock does not pass the edge, -/
theorem Timed.le_edge (ht : Timed clk s) (ha : Attended clk s) (hu : Urgency s)
    (hne : ¬Idle level s) : clk ≤ s.edge := by
  have hidle : s.currProcess = none ∧ s.readyQueue = [] → Idle level s := by
    rintro ⟨hcur, hq⟩
    exact idle_iff.mpr ⟨by simp [hcur], by simp [hq]⟩
  cases hpc : s.pc with
  | top =>
    rw [edge, hpc]
    dsimp only
    rcases ht.top hpc with ⟨hl, hnone⟩ | ⟨hl, hclk⟩
    · exact absurd (hidle ⟨hnone, hu.early hl⟩) hne
    · rcases ha.sem with hsem | ⟨hone, -, hsame, -⟩ <;> omega
  | wait c =>
    rw [edge, hpc]
    dsimp only
    rw [ha.sem_eq_zero (by simp [hpc])]
    have := ht.wait c hpc
    push_cast
    omega
  | permit =>
    obtain ⟨hl, hclk⟩ := ht.permit hpc
    rw [edge, hpc]
    dsimp only
    rcases hclk with hclk | ⟨hclk, hnone⟩
    · split_ifs <;> omega
    · rw [hnone, Option.isSome_none, if_neg Bool.false_ne_true]
      omega
  | exited => exact absurd (hidle (hu.left hpc)) hne
  | waitStart =>
    have := ht.turn (by rw [hpc]; rfl)
    rw [edge, hpc]
    dsimp only
    rw [ha.sem_eq_zero (by simp [hpc])]
    push_cast
    omega
  | _ =>
    have := ht.turn (by rw [hpc]; rfl)
    rw [edge_inTurn (by rw [hpc]; rfl) (by simp [hpc])]
    omega

/-- and something is owed. -/
theorem grace_lt_debt (ha : Attended clk s) (hr : Ranked s) (hne : ¬Idle level s) :
    s.grace < s.debt level := by
  have howed : ∀ y ∈ s.readyQueue, 0 < owed y := by
    intro y hy
    have := (ha.held y hy).1
    rw [owed]
    split_ifs <;> omega
  have hqueue : ∀ q : List PCB, (∀ y ∈ q, 0 < owed y) → 0 ≤ queueDebt level q := by
    intro q hq
    rw [queueDebt]
    refine List.sum_nonneg fun n hn => ?_
    obtain ⟨y, hy, rfl⟩ := List.mem_map.mp hn
    exact (hq y (List.mem_filter.mp hy).1).le
  cases hcur : s.currProcess with
  | none =>
    obtain ⟨y, q, hq, hle⟩ := front_urgent hr hcur hne
    rw [hq] at howed
    have hpos := (ha.held y (by rw [hq]; exact List.mem_cons_self)).1
    have hrest := hqueue q fun z hz => howed z (List.mem_cons_of_mem y hz)
    rw [debt, runDebt_none hcur, hq, queueDebt_cons, if_pos hle, owed, grace_front hcur hq]
    omega
  | some x =>
    have hrest := hqueue s.readyQueue howed
    obtain ⟨c, -, -, -, hpos, -⟩ := ha.running x hcur
    rw [debt, runDebt_some hcur, grace_some hcur]
    by_cases hxle : x.priority ≤ level
    · rw [if_pos hxle]
      omega
    · -- then somebody who is ready is at the level
      rw [if_neg hxle, zero_add]
      obtain ⟨y, hy, hle⟩ : ∃ y ∈ s.readyQueue, y.priority ≤ level := by
        by_contra hno
        push Not at hno
        refine hne (idle_iff.mpr ⟨fun z hz => ?_, hno⟩)
        exact Option.some.inj (hcur.symm.trans hz) ▸ not_le.mp hxle
      obtain ⟨l₁, l₂, hl⟩ := List.append_of_mem hy
      have hperm : queueDebt level s.readyQueue = queueDebt level (y :: (l₁ ++ l₂)) := by
        rw [hl]
        exact ((List.perm_middle.filter _).map _).sum_eq
      rw [hl] at howed
      have := hqueue (l₁ ++ l₂) fun z hz => howed z (by
        rcases List.mem_append.mp hz with hz | hz
        · exact List.mem_append_left _ hz
        · exact List.mem_append_right _ (List.mem_cons_of_mem y hz))
      have := howed y (by simp)
      rw [hperm, queueDebt_cons, if_pos hle]
      omega

end State

namespace World

open State

variable {w w' : World} {e : Event} {l : List ProcessData}

/-- Who is received in a step. -/
def joining (w w' : World) : List ProcessData := w'.sch.received.drop w.sch.received.length

/-- A state of the system, and what has been recorded of it: the tick with which the present busy
time of the level has begun, and who has been received since. -/
structure Busy where
  world : World
  since : ℤ
  members : List ProcessData

/-- The paced runs, recorded. At tick 0 nobody is dispatched, so that no busy time begins with
it. -/
def busy (level : ℤ) : TransitionSystem Busy where
  init a := (systemIf Paced).init a.world
  step a b := (systemIf Paced).step a.world b.world ∧
    b.since = (if Idle level a.world.sch then max b.world.sch.now 1 else a.since) ∧
    b.members = (if Idle level a.world.sch then [] else a.members) ++ joining a.world b.world

theorem busy_reachable {a : Busy} (h : (busy level).Reachable a) :
    (systemIf Paced).Reachable a.world := by
  refine TransitionSystem.Reachable.map (T := systemIf Paced) (f := Busy.world)
    (fun _ ha => ha) ?_ h
  rintro a b - ⟨hst, -⟩
  exact Or.inl hst

/-- Every paced run can be recorded. -/
theorem exists_busy (level : ℤ) (h : (systemIf Paced).Reachable w) :
    ∃ a, (busy level).Reachable a ∧ a.world = w := by
  induction h with
  | @init w h => exact ⟨⟨w, 0, []⟩, .init h, rfl⟩
  | @step _ w' _ hst ih =>
    obtain ⟨a, ha, rfl⟩ := ih
    let b : Busy := {
      world := w'
      since := if Idle level a.world.sch then max w'.sch.now 1 else a.since
      members := (if Idle level a.world.sch then [] else a.members) ++ joining a.world w' }
    have hb : (busy level).step a b := ⟨hst, rfl, rfl⟩
    exact ⟨b, ha.step hb, rfl⟩

/-- **In each step somebody comes in, or nobody does**, and then an idle level stays idle. -/
theorem Owes.step (h : ¬Idle level w.sch → Owes level D w.sch) (hk : Kept l w)
    (hu : Urgency w.sch) (hs : Steps w e w') : Owes level
      ((if Idle level w.sch then max w'.sch.now 1 else D) + cost level (joining w w')) w'.sch := by
  have hnobody : w'.sch.received = w.sch.received → joining w w' = [] := fun hrec => by
    rw [joining, hrec, List.drop_length]
  -- nobody comes in
  have hkeep : w'.sch.received = w.sch.received → (Idle level w.sch → Idle level w'.sch) →
      (¬Idle level w.sch → Owes level D w'.sch) → Owes level
        ((if Idle level w.sch then max w'.sch.now 1 else D) +
          cost level (joining w w')) w'.sch := by
    intro hrec hidle howes
    rw [hnobody hrec]
    by_cases hi : Idle level w.sch
    · exact fun hne => absurd (hidle hi) hne
    · rw [if_neg hi]
      exact (add_zero D).symm ▸ howes hi
  cases hs with
  | @sched s hm =>
    by_cases hrec : s.received = w.sch.received
    · exact hkeep hrec (fun hi => hi.moves hm hrec) fun hi =>
        (h hi).moves hk.timed hk.attended hk.forked hk.ranked hu hm hrec
    · cases hm with
      | @arrive d rest hpc hrcv h1 =>
        have hjoin : joining w { w with sch := { w.sch with
            msgq := rest
            readyQueue := Queue.enqueuePriority w.sch.readyQueue (createPCB d)
            perf := RRState.firstArrivalOf w.sch.perf d
            received := w.sch.received ++ [d] } } = [d] := List.drop_left
        rw [hjoin]
        by_cases hi : Idle level w.sch
        · have hidle : Owes level D w.sch := fun hne => absurd hi hne
          refine hidle.arrive hk.timed hpc ?_ ?_ ?_ ?_ ?_ <;> rfl
        · refine (h hi).arrive hk.timed hpc ?_ ?_ ?_ ?_ ?_ <;> rfl
      | _ => exact absurd rfl hrec
  | child he =>
    refine hkeep (received_executes he).1 (fun hi => ?_) fun hi =>
      (h hi).executes hk.timed hk.attended hu he
    cases he with
    | exit _ _ _ _ => exact hi
    | tick _ _ _ _ _ => exact hi
  | _ => exact hkeep rfl id h

/-- Who is unfinished was unfinished before, or comes in. -/
theorem unfinished_step (hs : Steps w e w') {x : PCB} (hx : x ∈ w'.sch.unfinished) :
    (∃ y ∈ w.sch.unfinished, y.id = x.id ∧ y.priority = x.priority) ∨
      ∃ d ∈ joining w w', d.id = x.id := by
  have hsame : x ∈ w.sch.unfinished →
      ∃ y ∈ w.sch.unfinished, y.id = x.id ∧ y.priority = x.priority := fun hx => ⟨x, hx, rfl, rfl⟩
  cases hs with
  | @sched s hm =>
    have hx : x ∈ s.currProcess.toList ++ s.readyQueue := hx
    cases hm with
    | @arrive d rest _ _ _ =>
      rcases List.mem_append.mp hx with hx | hx
      · exact Or.inl (hsame (List.mem_append_left _ hx))
      · rcases Queue.mem_enqueuePriority.mp hx with rfl | hx
        · refine Or.inr ⟨d, ?_, rfl⟩
          have hjoin : (w.sch.received ++ [d]).drop w.sch.received.length = [d] := List.drop_left
          show d ∈ (w.sch.received ++ [d]).drop w.sch.received.length
          rw [hjoin]
          exact List.mem_singleton_self d
        · exact Or.inl (hsame (List.mem_append_right _ hx))
    | reap _ _ _ _ => exact Or.inl (hsame (List.mem_append_right _ hx))
    | @preempt y _ _ _ hy _ _ =>
      rcases List.mem_append.mp hx with hx | hx
      · obtain rfl := List.mem_singleton.mp hx
        exact Or.inl ⟨y, by simp [unfinished, hy], rfl, rfl⟩
      · exact Or.inl (hsame (List.mem_append_right _ hx))
    | @dispatch y q _ _ hq _ =>
      rcases List.mem_append.mp hx with hx | hx
      · obtain rfl := List.mem_singleton.mp hx
        obtain ⟨hid, hprio, -⟩ := dispatched_fields y w.clock (w.sch.forks + 1)
        exact Or.inl ⟨y, by simp [unfinished, hq], hid.symm, hprio.symm⟩
      · refine Or.inl (hsame (List.mem_append_right _ ?_))
        rw [hq]
        exact List.mem_cons_of_mem y hx
    | @stop y _ hy _ =>
      rcases Queue.mem_enqueuePriority.mp (show x ∈ Queue.enqueuePriority _ _ from hx) with rfl | hx
      · exact Or.inl ⟨y, by simp [unfinished, hy], rfl, rfl⟩
      · exact Or.inl (hsame (List.mem_append_right _ hx))
    | _ => exact Or.inl (hsame hx)
  | child he =>
    cases he with
    | exit _ _ _ _ => exact Or.inl (hsame hx)
    | tick _ _ _ _ _ => exact Or.inl (hsame hx)
  | _ => exact Or.inl (hsame hx)

/-- **What the record says**: the time of the level is kept, and whoever is at the level has been
received since. -/
structure Recorded (level : ℤ) (a : Busy) : Prop where
  urgency : a.world.sch.Urgency
  owes : Owes level (a.since + cost level a.members) a.world.sch
  members : ∀ x ∈ a.world.sch.unfinished, x.priority ≤ level → ∃ d ∈ a.members, d.id = x.id

theorem busy_recorded {a : Busy} (h : (busy level).Reachable a) : Recorded level a := by
  refine h.invariant_of (J := fun a => (∃ l, Kept l a.world)) (P := Recorded level)
    (fun a ha => (reachable_kept (busy_reachable ha)).1) ?_ ?_
  · rintro a ⟨l, t, -, -, hw⟩
    have hidle : Idle level a.world.sch := by
      rw [hw]
      exact List.forall_mem_nil _
    refine ⟨?_, fun hne => absurd hidle hne, ?_⟩
    · rw [hw]
      exact ⟨by simp [start, State.init], by simp [start, State.init], by simp [start, State.init],
        by simp [start, State.init], fun _ => rfl, by simp [start, State.init],
        by simp [start, State.init], by simp [start, State.init]⟩
    · rw [hw]
      exact List.forall_mem_nil _
  · rintro a b ⟨l, hk⟩ h ⟨⟨e, hst, hp⟩, hsince, hmem⟩
    have hs := next_steps hst
    refine ⟨?_, ?_, fun x hx hle => ?_⟩
    · have hu := h.urgency
      generalize b.world = w' at hs
      cases hs with
      | sched hm => exact hu.moves hk.timed hk.ranked hm
      | child he => exact hu.executes he
      | _ =>
        exact ⟨hu.overtakes, hu.settled, hu.yields, hu.begun, hu.early, hu.left, hu.switch,
          hu.expired⟩
    · have hstep := Owes.step (fun _ => h.owes) hk h.urgency hs
      rw [hsince, hmem, cost_append]
      split_ifs at hstep ⊢ with hi
      · have hnil : cost level [] = 0 := rfl
        rw [hnil, zero_add]
        exact hstep
      · rw [← add_assoc]
        exact hstep
    · rw [hmem]
      rcases unfinished_step hs hx with ⟨y, hy, hid, hprio⟩ | ⟨d, hd, hid⟩
      · have hyle : y.priority ≤ level := hprio.trans_le hle
        obtain ⟨d, hd, hdy⟩ := h.members y hy hyle
        have hne : ¬Idle level a.world.sch := fun hi => absurd (hi y hy) (not_lt.mpr hyle)
        rw [if_neg hne]
        exact ⟨d, List.mem_append_left _ hd, hdy.trans hid⟩
      · exact ⟨d, List.mem_append_right _ hd, hid⟩

/-- **How long anybody waits.** In a paced run under HPF, while a process at the level or before it
is unfinished, fewer ticks have gone by since the level was last idle than those who have been
received since and are at the level need, with two ticks more for each. -/
theorem busy_bounded {a : Busy} (h : (busy level).Reachable a) {x : PCB}
    (hx : x ∈ a.world.sch.unfinished) (hle : x.priority ≤ level) :
    (∃ d ∈ a.members, d.id = x.id) ∧
      a.world.clock < a.since +
        ((a.members.filter fun d => d.priority ≤ level).map fun d => d.runtime + 2).sum := by
  obtain ⟨⟨l, hk⟩, -⟩ := reachable_kept (busy_reachable h)
  have hrec := busy_recorded h
  have hne : ¬Idle level a.world.sch := fun hi => absurd (hi x hx) (not_lt.mpr hle)
  refine ⟨hrec.members x hx hle, ?_⟩
  have hb := hrec.owes hne
  have hclock := hk.timed.le_edge hk.attended hrec.urgency hne
  have hdebt := grace_lt_debt hk.attended hk.ranked hne
  have hlost : 0 ≤ a.world.sch.lost := by
    rw [lost]
    split_ifs
    · exact Int.one_nonneg
    · exact le_rfl
  rw [cost] at hb
  omega

/-! ### An explicit run -/

/-- Make a move that is paced, and record it. -/
def recordBusy (level : ℤ) (a : Busy) (e : Event) : Option Busy :=
  (playPaced a.world e).map fun w => {
    world := w
    since := if Idle level a.world.sch then max w.sch.now 1 else a.since
    members := (if Idle level a.world.sch then [] else a.members) ++ joining a.world w }

theorem recordBusy_reachable {es : List Event} {a b : Busy} (h : (busy level).Reachable a)
    (hplay : TransitionSystem.playAll (recordBusy level) a es = some b) :
    (busy level).Reachable b := by
  induction es generalizing a with
  | nil => exact Option.some.inj hplay ▸ h
  | cons e es ih =>
    obtain ⟨a₁, ha₁, hplay⟩ := Option.bind_eq_some_iff.mp hplay
    obtain ⟨w, hw, rfl⟩ := Option.map_eq_some_iff.mp ha₁
    obtain ⟨⟨l, hk⟩, -⟩ := reachable_kept (busy_reachable h)
    rw [playPaced] at hw
    split_ifs at hw with hc
    exact ih (h.step ⟨⟨e, hw, paced_of_check hk.forked hc⟩, rfl, rfl⟩) hplay

/-- The urgent process is received at tick 2 and preempts the other one. At tick 4 it is still to be
let go of, and at tick 5 it could not be. -/
theorem busy_bounded_urgent : ∃ a : Busy, a.since = 2 ∧ a.world.clock = 4 ∧
    a.members.map ProcessData.id = [8] ∧ (∃ x ∈ a.world.sch.unfinished, x.priority ≤ 1) ∧
    a.world.clock < a.since +
      ((a.members.filter fun d => d.priority ≤ 1).map fun d => d.runtime + 2).sum := by
  have hrun : (TransitionSystem.playAll (recordBusy 1) ⟨start urgent 1, 0, []⟩ urgentRun).map
      (fun a => (a.since, a.world.clock, a.members.map ProcessData.id,
        decide (∃ x ∈ a.world.sch.unfinished, x.priority ≤ 1))) = some (2, 4, [8], true) := by
    decide +kernel
  obtain ⟨a, ha, he⟩ := Option.map_eq_some_iff.mp hrun
  simp only [Prod.mk.injEq] at he
  obtain ⟨hsince, hclock, hmem, hdec⟩ := he
  have hstart : (busy 1).Reachable ⟨start urgent 1, 0, []⟩ :=
    .init ⟨urgent, 1, workload_urgent, by decide, rfl⟩
  obtain ⟨x, hx, hle⟩ := of_decide_eq_true hdec
  exact ⟨a, hsince, hclock, hmem, ⟨x, hx, hle⟩,
    (busy_bounded (recordBusy_reachable hstart ha) hx hle).2⟩

end World

end Hpf

end CpuScheduler
