import CpuScheduler.RR.Accounting

/-!
# The admission of processes

The generator tells the scheduler how far it has come by a message for each tick that it
has seen, and `receiveProcesses` takes the messages by priority: all processes that are
there come first, and a message for a tick ends the call unless it is older than the
clock value that was read. The messages that are older have been left behind in ticks in
which the scheduler did not receive.

A run is recorded with the messages for the ticks (`CpuScheduler.World.Admitting`). What
holds of the generator and the queue is `CpuScheduler.World.Posted`, what holds of the
scheduler is `CpuScheduler.World.Taken`, and `CpuScheduler.World.Timely` is about the
times in the PCBs.
-/

namespace CpuScheduler

/-- **The times in a PCB.** The process has not been dispatched before its arrival and has
not waited for less than no time. Its arrival is not after `t`, its last stop not after
`u`. -/
structure PCB.Timely (t u : ℤ) (x : PCB) : Prop where
  arrived : x.arrival ≤ t
  stopped : x.lastStopped ≤ u
  started : x.startTime = -1 ∨ x.arrival ≤ x.startTime
  waited : 0 ≤ x.waitingTime

namespace RRState

open Fallible Mem

variable {K : Mem → Prop} {P : Params} {clk : Clk} {s s' : RRState} {p : Ptr} {x y : PCB}
  {t t' u : ℤ}

/-! ### What the reception sees of a turn -/

/-- The part of the state that belongs to the reception is the same. -/
structure SameReception (s s' : RRState) : Prop where
  msgq : s'.msgq = s.msgq
  admitted : s'.admitted = s.admitted
  receiving : s'.receivingProcesses = s.receivingProcesses
  synced : s'.lastReceivedSync = s.lastReceivedSync
  read : s'.receiveNow = s.receiveNow

/-- **A turn, as the reception sees it.** -/
inductive Receives (clk : Clk) (s : RRState) : RRState → Prop
  | other {s' : RRState} (h : SameReception s s') (hpc : s.pc ≠ .receive)
      (hpc' : s'.pc ≠ .receive ∧ s'.pc ≠ .algo) : Receives clk s s'
  | listen (hpc : s.pc = .gate) (hrec : s.receivingProcesses = true)
      (hnew : s.now > s.lastReceivedSync) : Receives clk s { s with
        contextSwitchUntil := -1, receiveNow := clk .receive, pc := .receive }
  | skip (hpc : s.pc = .gate) (h : ¬(s.receivingProcesses = true ∧ s.now > s.lastReceivedSync)) :
      Receives clk s { s with contextSwitchUntil := -1, pc := .algo }
  | arrive {d : ProcessData} {rest : List ProcessData} (hpc : s.pc = .receive)
      (hrcv : MsgQueue.rcv ProcessData.mtype (-5) s.msgq = some (d, rest)) (hd : d.mtype = 1) :
      Receives clk s (({ s with msgq := rest } : RRState).receiveProcess d)
  | sync {d : ProcessData} {rest : List ProcessData} (hpc : s.pc = .receive)
      (hrcv : MsgQueue.rcv ProcessData.mtype (-5) s.msgq = some (d, rest)) (hd : d.mtype = 2)
      (hnew : d.arrival ≥ s.receiveNow) :
      Receives clk s { s with msgq := rest, lastReceivedSync := d.arrival, pc := .algo }
  | last {d : ProcessData} {rest : List ProcessData} (hpc : s.pc = .receive)
      (hrcv : MsgQueue.rcv ProcessData.mtype (-5) s.msgq = some (d, rest)) (hd : d.mtype = 5) :
      Receives clk s { s with msgq := rest, receivingProcesses := false, pc := .algo }
  | drop {d : ProcessData} {rest : List ProcessData} (hpc : s.pc = .receive)
      (hrcv : MsgQueue.rcv ProcessData.mtype (-5) s.msgq = some (d, rest)) (h1 : d.mtype ≠ 1)
      (h5 : d.mtype ≠ 5) (h2 : d.mtype = 2 → d.arrival < s.receiveNow) :
      Receives clk s { s with msgq := rest }

theorem Turn.receives (ht : Turn K P clk s s') : Receives clk s s' := by
  have hsame : ∀ {pc : Pc} (s₁ : RRState), s.pc = pc → pc ≠ .receive → SameReception s s₁ →
      (s₁.pc ≠ .receive ∧ s₁.pc ≠ .algo) → Receives clk s s₁ := by
    rintro pc s₁ rfl hpc h hpc'
    exact .other h hpc hpc'
  cases ht with
  | exit hpc _ _ _ _ => exact hsame _ hpc (by simp) ⟨rfl, rfl, rfl, rfl, rfl⟩ ⟨by simp, (by simp)⟩
  | spin hpc =>
    exact hsame _ hpc (by simp) ⟨rfl, rfl, rfl, rfl, rfl⟩ (by rw [hpc]; exact ⟨by simp, (by simp)⟩)
  | serve hpc hcur hs =>
    obtain ⟨rq, mq, hf⟩ := fetched_eq clk s
    rw [hf] at hs
    cases hs <;> exact hsame _ hpc (by simp) ⟨rfl, rfl, rfl, rfl, rfl⟩ ⟨by simp, (by simp)⟩
  | firstScan hpc hu | lastScan hpc hu =>
    obtain ⟨m, u, b, n, hm, -, rfl⟩ := hu
    exact hsame _ hpc (by simp) ⟨rfl, rfl, rfl, rfl, rfl⟩ ⟨by simp, (by simp)⟩
  | listen hpc hopen hrec hnew => exact .listen hpc hrec hnew
  | skip hpc hopen h => exact .skip hpc h
  | arrive hpc hrcv hd => exact .arrive hpc hrcv hd
  | sync hpc hrcv hd hnew => exact .sync hpc hrcv hd hnew
  | last hpc hrcv hd => exact .last hpc hrcv hd
  | drop hpc hrcv h1 h5 h2 => exact .drop hpc hrcv h1 h5 h2
  | @algo s₁ m print cl hpc hd hm _ =>
    have h₁ : SameReception s s₁ := by
      rcases hd with ⟨-, hd⟩ | ⟨-, rfl⟩
      · obtain ⟨m, r, b, n, t, u, k, rt, log, ch, c, rfl⟩ := hd.frame
        exact ⟨rfl, rfl, rfl, rfl, rfl⟩
      · exact ⟨rfl, rfl, rfl, rfl, rfl⟩
    obtain ⟨hq, ha, hr, hs, hn⟩ := h₁
    rw [permit]
    split_ifs <;> exact hsame _ hpc (by simp) ⟨hq, ha, hr, hs, hn⟩ ⟨by simp, (by simp)⟩
  | _ hpc => exact hsame _ hpc (by simp) ⟨rfl, rfl, rfl, rfl, rfl⟩ ⟨by simp, (by simp)⟩

/-- Admitted processes and process messages, in this order, are those of before. -/
theorem Receives.order (hr : Receives clk s s') :
    (s'.admitted ++ s'.msgq.filter fun d => d.mtype = 1) =
      s.admitted ++ s.msgq.filter fun d => d.mtype = 1 := by
  have hkeep : ∀ {d : ProcessData} {rest : List ProcessData},
      MsgQueue.rcv ProcessData.mtype (-5) s.msgq = some (d, rest) → d.mtype ≠ 1 →
      (rest.filter fun d => d.mtype = 1) = s.msgq.filter fun d => d.mtype = 1 := by
    intro d rest hrcv hd
    rw [MsgQueue.filter_of_rcv_neg (by decide) hrcv, if_neg hd, List.nil_append]
  cases hr with
  | other h _ _ => rw [h.admitted, h.msgq]
  | listen _ _ _ => rfl
  | skip _ _ => rfl
  | @arrive d rest _ hrcv hd =>
    rw [MsgQueue.filter_of_rcv_neg (by decide) hrcv 1, if_pos hd, ← List.append_assoc]
    rfl
  | sync _ hrcv hd _ => rw [hkeep hrcv (by rw [hd]; decide)]
  | last _ hrcv hd => rw [hkeep hrcv (by rw [hd]; decide)]
  | drop _ hrcv h1 _ _ => rw [hkeep hrcv h1]

/-! ### The handles of the processes -/

/-- `RR_algo` creates no process and lets go of none. -/
theorem Dispatches.handles (hd : Dispatches P clk s s') : s'.admitted = s.admitted ∧
    s'.received = s.received ∧ s'.brk = s.brk ∧ s'.currentPCBs = s.currentPCBs := by
  cases hd with
  | intro hq hx hstart hm hline => exact ⟨rfl, rfl, hm.brk, hm.pcbs⟩

theorem Decides.handles (hd : Decides K P clk s s') : s'.admitted = s.admitted ∧
    s'.received = s.received ∧ s'.brk = s.brk ∧ s'.currentPCBs = s.currentPCBs := by
  cases hd with
  | stay => exact ⟨rfl, rfl, rfl, rfl⟩
  | extend hp => exact ⟨rfl, rfl, rfl, rfl⟩
  | preempt hp hx hdue hwait hu hheld hbefore hd =>
    obtain ⟨m, u, b, n, hm, -, rfl⟩ := hu
    obtain ⟨ha, hr, hb, hc⟩ := hd.handles
    exact ⟨ha, hr, hb.trans hm.brk, hc.trans hm.pcbs⟩
  | dispatch hp hd => exact hd.handles

/-- **A process enters `currentPCBs` when it is admitted**, and then it enters the ready
queue too, under a handle that was not used before. -/
def Enters (s s' : RRState) : Prop :=
  (s'.admitted = s.admitted ∧ s'.currentPCBs ⊆ s.currentPCBs) ∨
  ∃ d p, p ∉ s.received ∧ s'.admitted = s.admitted ++ [d] ∧ s'.received = s.received ++ [p] ∧
    s'.currentPCBs = Queue.enqueue s.currentPCBs p ∧ s'.readyQueue = Queue.enqueue s.readyQueue p

/-- A turn gives out the next handle, or none. -/
theorem Turn.enters (ht : Turn K P clk s s') :
    (s'.admitted = s.admitted ∧ s'.received = s.received ∧ s'.brk = s.brk ∧
      s'.currentPCBs ⊆ s.currentPCBs) ∨
    ∃ d rest, MsgQueue.rcv ProcessData.mtype (-5) s.msgq = some (d, rest) ∧ d.mtype = 1 ∧
      s' = ({ s with msgq := rest } : RRState).receiveProcess d := by
  cases ht with
  | arrive hpc hrcv hd => exact Or.inr ⟨_, _, hrcv, hd, rfl⟩
  | serve hpc hcur hs =>
    obtain ⟨rq, mq, hf⟩ := fetched_eq clk s
    rw [hf] at hs
    cases hs with
    | keep _ hm _ => exact Or.inl ⟨rfl, rfl, hm.brk, (List.Perm.of_eq hm.pcbs).subset⟩
    | block _ _ _ hm _ => exact Or.inl ⟨rfl, rfl, hm.brk, (List.Perm.of_eq hm.pcbs).subset⟩
    | switch _ _ _ _ hm _ => exact Or.inl ⟨rfl, rfl, hm.brk, (List.Perm.of_eq hm.pcbs).subset⟩
  | firstScan hpc hu | lastScan hpc hu =>
    obtain ⟨m, u, b, n, hm, -, rfl⟩ := hu
    exact Or.inl ⟨rfl, rfl, hm.brk, (List.Perm.of_eq hm.pcbs).subset⟩
  | reap hpc hcur hx hwait hr =>
    exact Or.inl ⟨rfl, rfl, hr.brk, hr.pcbs ▸ List.erase_subset⟩
  | @algo s₁ m print cl hpc hd hm _ =>
    have h₁ : s₁.admitted = s.admitted ∧ s₁.received = s.received ∧ s₁.brk = s.brk ∧
        s₁.currentPCBs = s.currentPCBs := by
      rcases hd with ⟨-, hd⟩ | ⟨-, rfl⟩
      · exact hd.handles
      · exact ⟨rfl, rfl, rfl, rfl⟩
    obtain ⟨ha, hr, hb, hc⟩ := h₁
    rw [permit]
    have hpcbs := (List.Perm.of_eq (hm.pcbs.trans hc)).subset
    split_ifs <;> exact Or.inl ⟨ha, hr, hm.brk.trans hb, hpcbs⟩
  | _ => exact Or.inl ⟨rfl, rfl, rfl, List.Subset.refl _⟩

/-- **The process that is admitted as the `k`-th one has the handle `k`.** -/
structure Entered (s : RRState) : Prop where
  size : s.brk = s.admitted.length
  handles : s.received = List.range s.admitted.length
  pcb : ForallHeap (fun p x => ∃ d, s.admitted[p]? = some d ∧ x.id = d.id ∧
    x.arrival = d.arrival ∧ x.runtime = d.runtime) s.toMem

theorem Turn.entered (ht : Turn K P clk s s') (h : Entered s) : Entered s' ∧ Enters s s' := by
  -- what is known of a process stays known
  obtain ⟨l, hl, hnew⟩ : ∃ l, s'.admitted = s.admitted ++ l ∧ ∀ d,
      MsgQueue.rcv ProcessData.mtype (-5) s.msgq = some (d, s'.msgq) → d.mtype = 1 → l = [d] := by
    rcases ht.admitted with ⟨hadm, hno⟩ | ⟨d, hrcv, -, hadm⟩
    · exact ⟨[], by rw [hadm, List.append_nil], fun d hd h1 => absurd h1 (hno d hd)⟩
    · refine ⟨[d], hadm, fun d' hd' _ => ?_⟩
      rw [hrcv] at hd'
      rw [(Prod.mk.inj (Option.some.inj hd')).1]
  have hpcb : ForallHeap (fun p x => ∃ d, s'.admitted[p]? = some d ∧ x.id = d.id ∧
      x.arrival = d.arrival ∧ x.runtime = d.runtime) s'.toMem := by
    refine ht.forall_heap (fun q x y hc hx => ?_) (fun q x r hx => hx) (fun _ q x hx => ?_)
      (fun d hrcv h1 => ?_) fun q x hx => ?_
    · obtain ⟨hi, ha, hr, -⟩ := core_eq hc
      rw [hi, ha, hr]
      exact hx
    · obtain ⟨hi, ha, hr⟩ := dispatched_eq clk q x
      rw [hi, ha, hr]
      exact hx
    · refine ⟨d, ?_, rfl, rfl, rfl⟩
      rw [hl, hnew d hrcv h1, h.size, List.getElem?_concat_length]
    · obtain ⟨d, hd, hx⟩ := h.pcb q x hx
      exact ⟨d, hl ▸ List.getElem?_append_left (List.getElem?_eq_some_iff.mp hd).1 ▸ hd, hx⟩
  rcases ht.enters with ⟨ha, hr, hb, hc⟩ | ⟨d, rest, -, -, rfl⟩
  · exact ⟨⟨by rw [hb, ha, h.size], by rw [hr, ha, h.handles], hpcb⟩, Or.inl ⟨ha, hc⟩⟩
  · refine ⟨⟨?_, ?_, hpcb⟩, Or.inr ⟨d, s.brk, ?_, rfl, rfl, rfl, rfl⟩⟩
    · show s.brk + 1 = (s.admitted ++ [d]).length
      rw [List.length_append, h.size, List.length_singleton]
    · show s.received ++ [s.brk] = List.range (s.admitted ++ [d]).length
      rw [List.length_append, List.length_singleton, List.range_succ, h.handles, h.size]
    · rw [h.handles, h.size, List.mem_range]
      exact lt_irrefl _

/-! ### The times -/

theorem timely_congr (h : x.Timely t u) (hc : y.core = x.core) : y.Timely t u := by
  obtain ⟨-, ha, -, -, hw, hst, hls, -, -⟩ := core_eq hc
  obtain ⟨harr, hstop, hstart, hwait⟩ := h
  exact ⟨by rwa [ha], by rwa [hls], by rwa [hst, ha], by rwa [hw]⟩

/-- A process is dispatched after it has arrived and after its last stop. -/
theorem timely_dispatched (h : x.Timely t u) (hstart : t ≤ clk .start) (hresume : u ≤ clk .resume)
    (p : Ptr) : (x.dispatched clk p).Timely t u := by
  have hs : (x.stamped clk).Timely t u := by
    rw [PCB.stamped]
    split_ifs
    · exact ⟨h.arrived, h.stopped, Or.inr (h.arrived.trans hstart),
        sub_nonneg.mpr (h.arrived.trans hstart)⟩
    · exact h
  rw [PCB.dispatched]
  split_ifs
  · exact ⟨hs.arrived, hs.stopped, hs.started, hs.waited⟩
  · refine ⟨hs.arrived, hs.stopped, hs.started, ?_⟩
    show 0 ≤ if (x.stamped clk).lastStopped ≥ 0 then
      (x.stamped clk).waitingTime + (clk .resume - (x.stamped clk).lastStopped)
      else (x.stamped clk).waitingTime
    have hwait := hs.waited
    have hstop := hs.stopped
    split_ifs <;> omega

/-- **A turn keeps the times**, if the clock does not go back while the running process is
exchanged. -/
theorem Turn.timely (ht : Turn K P clk s s') (h : ForallHeap (fun _ x => x.Timely t t) s.toMem)
    (hclk : ∀ a, t ≤ clk a ∧ clk a ≤ t') (hon : clk .stopped ≤ clk .resume) (ht₀ : 0 ≤ t)
    (hnew : ∀ d ∈ s.msgq, d.mtype = 1 → d.arrival ≤ t) :
    ForallHeap (fun _ x => x.Timely t' t') s'.toMem := by
  -- a process that is dispatched in this turn has been stopped before
  let u := if s.pc = .algo then clk .resume else t'
  have hu : t ≤ u ∧ u ≤ t' ∧ clk (stopSite s.pc) ≤ u := by
    refine ⟨?_, ?_, ?_⟩
    · simp only [u]
      split_ifs
      · exact (hclk _).1
      · exact (hclk .now).1.trans (hclk .now).2
    · simp only [u]
      split_ifs
      · exact (hclk _).2
      · exact le_rfl
    · simp only [u]
      split_ifs with hpc
      · rw [hpc]
        exact hon
      · exact (hclk _).2
  have hall : ForallHeap (fun _ x => x.Timely t u) s'.toMem := by
    refine ht.forall_heap (fun q x y hc hx => timely_congr hx hc) (fun q x r hx => ?_)
      (fun hpc q x hx => ?_) (fun d hrcv h1 => ?_) fun q x hx => ?_
    · exact ⟨hx.arrived, hu.2.2, hx.started, hx.waited⟩
    · refine timely_dispatched hx (hclk _).1 ?_ q
      simp only [u, hpc, if_true]
      exact le_rfl
    · have hmem : d ∈ s.msgq := (MsgQueue.perm_of_rcv hrcv).mem_iff.mpr List.mem_cons_self
      refine ⟨hnew d hmem h1, ?_, Or.inl rfl, le_rfl⟩
      show (-1 : ℤ) ≤ u
      omega
    · obtain ⟨ha, hs, hst, hw⟩ := h q x hx
      exact ⟨ha, hs.trans hu.1, hst, hw⟩
  intro q x hx
  obtain ⟨ha, hs, hst, hw⟩ := hall q x hx
  exact ⟨ha.trans ((hclk .now).1.trans (hclk .now).2), hs.trans hu.2.1, hst, hw⟩

end RRState

namespace World

open Fallible RRState Mem

/-! ### Runs with the messages for the ticks -/

/-- A message for a tick: the tick, and what had been sent before it. -/
structure Sync where
  tick : ℤ
  sent : List ProcessData

/-- The message of a step. -/
def syncsOf (w : World) : Event → List Sync
  | .sync => w.gen.current.toList.map fun t => ⟨t, w.gen.sent⟩
  | _ => []

/-- The clock does not go back while the running process is exchanged. -/
def Onward : Event → Prop
  | .sched clk _ => clk .stopped ≤ clk .resume
  | _ => True

/-- A run so far, with the messages for the ticks that have been sent. -/
structure Admitting where
  world : World
  syncs : List Sync

/-- The runs, with a record of the messages for the ticks. -/
def admitting (P : Params) : TransitionSystem Admitting where
  init a := (system P).init a.world ∧ a.syncs = []
  step a b := ∃ e, Step P e a.world b.world ∧ Onward e ∧ b.syncs = a.syncs ++ a.world.syncsOf e

variable {K : Mem → Prop} {P : Params} {w w' : World} {e : Event} {l : List Sync}

/-! ### The generator and the queue -/

/-- **What the generator has sent**: the processes in their order, and the messages for
increasing ticks. -/
structure Posted (w : World) (l : List Sync) : Prop where
  ticks : l.Pairwise fun a b => a.tick < b.tick
  past : ∀ e ∈ l, e.tick ≤ w.gen.lastTime ∧ e.sent <+: w.gen.sent
  clock : w.gen.lastTime ≤ w.clock
  current : ∀ t, w.gen.current = some t → w.gen.lastTime < t
  done : w.gen.done = true → w.gen.queue = [] ∧ w.gen.current = none
  types : ∀ d ∈ w.rr.msgq, d.mtype = 1 ∨ d.mtype = 2 ∨ (d.mtype = 5 ∧ w.gen.done = true)
  order : w.gen.sent = w.rr.admitted ++ w.rr.msgq.filter fun d => d.mtype = 1

/-- The scheduler takes messages, it adds none. -/
theorem Posted.turn {clk : Clk} {s : RRState} {t : ℤ} (h : Posted w l)
    (hclk : Readings clk w.clock t)
    (ht : Turn K P clk w.rr s) : Posted { w with rr := s, clock := t } l where
  ticks := h.ticks
  past := h.past
  clock := h.clock.trans hclk.1
  current := h.current
  done := h.done
  types d hd := by
    rcases ht.msgq with he | ⟨d', hrcv⟩
    · exact h.types d (he ▸ hd)
    · exact h.types d ((MsgQueue.perm_of_rcv hrcv).mem_iff.mpr (List.mem_cons_of_mem _ hd))
  order := h.order.trans ht.receives.order.symm

/-- **The generator keeps its promises.** -/
theorem Step.posted (hst : Step P e w w') (hi : Inv (fun _ => True) (fun _ => True) w)
    (ha : Arrived w) (h : Posted w l) : Posted w' (l ++ w.syncsOf e) := by
  have hsame : ∀ {w₁ : World}, Posted w₁ l → Posted w₁ (l ++ []) := fun h => by
    rwa [List.append_nil]
  cases hst with
  | sched hclk hs =>
    refine hsame ?_
    exact h.turn hclk (hi.turn hs)
  | child hs =>
    refine hsame ?_
    obtain ⟨c, -, -, -, ⟨-, rfl⟩ | ⟨-, -, rfl⟩⟩ := childStep_cases hs <;>
      exact ⟨h.ticks, h.past, h.clock, h.current, h.done, h.types, h.order⟩
  | @observe _ t hq hcur ht =>
    refine hsame ?_
    refine ⟨h.ticks, h.past, h.clock.trans ht, fun u hu => ?_, fun hd => absurd (h.done hd).1 hq,
      h.types, h.order⟩
    have hu : (if t = w.gen.lastTime then none else some t) = some u := hu
    split_ifs at hu with hne
    obtain rfl := Option.some.inj hu
    exact lt_of_le_of_ne (h.clock.trans ht) (Ne.symm hne)
  | @send _ t d q hcur hq hdue =>
    refine hsame ?_
    have hnot : w.gen.done ≠ true := fun hd => nomatch hcur.symm.trans (h.done hd).2
    have hd1 : d.mtype = 1 := by
      refine (hi.good d (List.mem_append_left _ ?_)).2.2
      rw [hq]
      exact List.mem_cons_self
    refine ⟨h.ticks, fun e he => ⟨(h.past e he).1, (h.past e he).2.trans (List.prefix_append ..)⟩,
      h.clock, h.current, fun hd => absurd hd hnot, fun d' hd' => ?_, ?_⟩
    · rcases List.mem_append.mp hd' with hd' | hd'
      · exact h.types d' hd'
      · exact Or.inl (List.mem_singleton.mp hd' ▸ hd1)
    · show w.gen.sent ++ [d] = w.rr.admitted ++ (w.rr.msgq ++ [d]).filter _
      rw [h.order, List.filter_append, List.filter_singleton, decide_eq_true hd1,
        List.append_assoc]
      rfl
  | @sync _ t hcur hq =>
    have hnot : w.gen.done ≠ true := fun hd => nomatch hcur.symm.trans (h.done hd).2
    have hlt := h.current t hcur
    rw [syncsOf, hcur]
    refine ⟨List.pairwise_append.mpr ⟨h.ticks, List.pairwise_singleton _ _, fun a ha b hb => ?_⟩,
      fun e he => ?_, ha.current t hcur, (fun u hu => nomatch hu), fun hd => absurd hd hnot,
      fun d hd => ?_, ?_⟩
    · rw [List.mem_singleton.mp hb]
      exact lt_of_le_of_lt (h.past a ha).1 hlt
    · rcases List.mem_append.mp he with he | he
      · exact ⟨(h.past e he).1.trans hlt.le, (h.past e he).2⟩
      · rw [List.mem_singleton.mp he]
        exact ⟨le_rfl, List.prefix_refl _⟩
    · rcases List.mem_append.mp hd with hd | hd
      · exact h.types d hd
      · exact Or.inr (Or.inl (List.mem_singleton.mp hd ▸ rfl))
    · show w.gen.sent = w.rr.admitted ++ (w.rr.msgq ++ [syncMsg t]).filter _
      rw [h.order, List.filter_append]
      simp [syncMsg]
  | last hq hcur hdone =>
    refine hsame ?_
    refine ⟨h.ticks, h.past, h.clock, h.current, fun _ => ⟨hq, hcur⟩, fun d hd => ?_, ?_⟩
    · rcases List.mem_append.mp hd with hd | hd
      · rcases h.types d hd with h1 | h2 | ⟨h5, -⟩
        · exact Or.inl h1
        · exact Or.inr (Or.inl h2)
        · exact Or.inr (Or.inr ⟨h5, rfl⟩)
      · exact Or.inr (Or.inr ⟨List.mem_singleton.mp hd ▸ rfl, rfl⟩)
    · show w.gen.sent = w.rr.admitted ++ (w.rr.msgq ++ [lastMsg]).filter _
      rw [h.order, List.filter_append]
      simp [lastMsg, syncMsg]

/-! ### The reception -/

/-- **What the scheduler has taken**: the messages for the ticks in their order, and
those that it is done with are for ticks before its own. -/
structure Taken (w : World) (l : List Sync) : Prop where
  split : ∃ old new : List Sync, l = old ++ new ∧
    (w.rr.msgq.filter fun d => d.mtype = 2) = new.map (fun e => syncMsg e.tick) ∧
    (w.rr.receivingProcesses = true → ∀ e ∈ old, e.tick ≤ w.rr.lastReceivedSync ∨
      (w.rr.pc = .receive ∧ e.tick < w.rr.receiveNow))
  covered : ∀ e ∈ l, e.tick ≤ w.rr.lastReceivedSync → e.sent <+: w.rr.admitted
  synced : w.rr.lastReceivedSync ≤ w.gen.lastTime
  waits : w.rr.pc = .receive → w.rr.receivingProcesses = true ∧
    w.rr.lastReceivedSync < w.rr.now ∧ w.rr.now ≤ w.rr.receiveNow ∧ w.rr.receiveNow ≤ w.clock
  algo : w.rr.pc = .algo → w.rr.receivingProcesses = true → w.rr.now ≤ w.rr.lastReceivedSync
  first : w.rr.pc ≠ .receive → w.rr.receivingProcesses = true →
    ∀ e ∈ l, w.rr.receiveNow ≤ e.tick → w.rr.lastReceivedSync ≤ e.tick
  closed : w.rr.receivingProcesses = false →
    w.gen.done = true ∧ ∀ d ∈ w.rr.msgq, d.mtype ≠ 1

/-- Nothing has happened that the reception is about. -/
theorem Taken.of_same (h : Taken w l) (hs : SameReception w.rr w'.rr) (hpc : w'.rr.pc = w.rr.pc)
    (hnow : w'.rr.now = w.rr.now) (hc : w.clock ≤ w'.clock)
    (hlast : w'.gen.lastTime = w.gen.lastTime) (hdone : w'.gen.done = w.gen.done) :
    Taken w' l := by
  obtain ⟨hq, ha, hr, hsy, hn⟩ := hs
  obtain ⟨hsplit, hcov, hle, hwaits, halgo, hfirst, hcl⟩ := h
  refine ⟨?_, ?_, ?_, ?_, ?_, ?_, ?_⟩
  · rwa [hq, hr, hsy, hn, hpc]
  · rwa [ha, hsy]
  · rwa [hsy, hlast]
  · rw [hpc, hr, hsy, hn, hnow]
    exact fun hp => ⟨(hwaits hp).1, (hwaits hp).2.1, (hwaits hp).2.2.1, (hwaits hp).2.2.2.trans hc⟩
  · rwa [hpc, hr, hsy, hnow]
  · rwa [hpc, hr, hsy, hn]
  · rwa [hr, hdone, hq]

/-- The messages behind one that is received by priority are not processes, unless it is
one. -/
theorem ne_one_of_rcv {q rest : List ProcessData} {d : ProcessData}
    (hrcv : MsgQueue.rcv ProcessData.mtype (-5) q = some (d, rest)) (hd : 1 < d.mtype) :
    (∀ x ∈ q, x.mtype ≠ 1) ∧ ∀ x ∈ rest, x.mtype ≠ 1 := by
  have hall : ∀ x ∈ q, x.mtype ≠ 1 := fun x hx => by
    have := (MsgQueue.rcv_neg_eq_some (by decide) hrcv).2.1 x hx
    omega
  exact ⟨hall, fun x hx =>
    hall x ((MsgQueue.perm_of_rcv hrcv).mem_iff.mpr (List.mem_cons_of_mem _ hx))⟩

/-- The message for a tick that is received is the first one that has not been taken. -/
theorem next_sync {q rest : List ProcessData} {d : ProcessData} {new : List Sync}
    (hq : (q.filter fun d => d.mtype = 2) = new.map fun e => syncMsg e.tick)
    (hrcv : MsgQueue.rcv ProcessData.mtype (-5) q = some (d, rest)) (hd : d.mtype = 2) :
    ∃ e new', new = e :: new' ∧ d = syncMsg e.tick ∧
      (rest.filter fun d => d.mtype = 2) = new'.map fun e => syncMsg e.tick := by
  rw [MsgQueue.filter_of_rcv_neg (by decide) hrcv, if_pos hd, List.singleton_append] at hq
  cases new with
  | nil => exact nomatch hq
  | cons e new =>
    obtain ⟨he, hq⟩ := List.cons.inj hq
    exact ⟨e, new, rfl, he, hq⟩

/-- Without process messages, everything that was sent has been admitted. -/
theorem Posted.all_admitted (h : Posted w l) (hno : ∀ x ∈ w.rr.msgq, x.mtype ≠ 1) :
    w.gen.sent = w.rr.admitted := by
  rw [h.order, List.filter_eq_nil_iff.mpr fun x hx => by simpa using hno x hx, List.append_nil]

/-- **The message that ends a call of `receiveProcesses`** is the first one for a tick at
or after the clock value it has read. -/
theorem Taken.sync {d : ProcessData} {rest : List ProcessData} {t : ℤ} (h : Taken w l)
    (hp : Posted w l) (hpc : w.rr.pc = .receive)
    (hrcv : MsgQueue.rcv ProcessData.mtype (-5) w.rr.msgq = some (d, rest)) (hd : d.mtype = 2)
    (hnew : d.arrival ≥ w.rr.receiveNow) :
    Taken { w with
      rr := { w.rr with msgq := rest, lastReceivedSync := d.arrival, pc := .algo }
      clock := t } l := by
  obtain ⟨hrec, hlt, hle, hread⟩ := h.waits hpc
  obtain ⟨old, new, hl, hq, hold⟩ := h.split
  have hsent : w.gen.sent = w.rr.admitted :=
    hp.all_admitted (ne_one_of_rcv hrcv (by rw [hd]; decide)).1
  -- the message is the first one that has not been taken
  obtain ⟨e₀, new, rfl, rfl, hq⟩ := next_sync hq hrcv hd
  have hticks := hp.ticks
  rw [hl] at hticks
  obtain ⟨-, hnew', hcross⟩ := List.pairwise_append.mp hticks
  have hmem : e₀ ∈ l := hl ▸ List.mem_append_right _ List.mem_cons_self
  refine ⟨⟨old ++ [e₀], new, by rw [hl, List.append_assoc]; rfl, hq, fun _ e he => Or.inl ?_⟩,
    fun e he _ => hsent ▸ (hp.past e he).2, (hp.past e₀ hmem).1, (fun hp => nomatch hp),
    fun _ _ => hle.trans hnew, fun _ _ e he hge => ?_, fun hr => nomatch hrec.symm.trans hr⟩
  · rcases List.mem_append.mp he with he | he
    · exact (hcross e he e₀ List.mem_cons_self).le
    · rw [List.mem_singleton.mp he]
      exact le_rfl
  · rw [hl] at he
    rcases List.mem_append.mp he with he | he
    · have hge : w.rr.receiveNow ≤ e.tick := hge
      rcases hold hrec e he with hlast | ⟨-, hlast⟩ <;> omega
    · rcases List.mem_cons.mp he with rfl | he
      · exact le_rfl
      · exact ((List.pairwise_cons.mp hnew').1 e he).le

/-- **A message for an earlier tick** is dropped. -/
theorem Taken.drop {d : ProcessData} {rest : List ProcessData} {t : ℤ} (h : Taken w l)
    (hp : Posted w l) (hpc : w.rr.pc = .receive) (ht : w.clock ≤ t)
    (hrcv : MsgQueue.rcv ProcessData.mtype (-5) w.rr.msgq = some (d, rest)) (h1 : d.mtype ≠ 1)
    (h5 : d.mtype ≠ 5) (h2 : d.mtype = 2 → d.arrival < w.rr.receiveNow) :
    Taken { w with rr := { w.rr with msgq := rest }, clock := t } l := by
  obtain ⟨hrec, hlt, hle, hread⟩ := h.waits hpc
  obtain ⟨old, new, hl, hq, hold⟩ := h.split
  have hd : d.mtype = 2 := by
    have hmem : d ∈ w.rr.msgq := (MsgQueue.perm_of_rcv hrcv).mem_iff.mpr List.mem_cons_self
    rcases hp.types d hmem with hd | hd | ⟨hd, -⟩
    · exact absurd hd h1
    · exact hd
    · exact absurd hd h5
  obtain ⟨e₀, new, rfl, rfl, hq⟩ := next_sync hq hrcv hd
  refine ⟨⟨old ++ [e₀], new, by rw [hl, List.append_assoc]; rfl, hq, fun _ e he => ?_⟩, h.covered,
    h.synced, fun _ => ⟨hrec, hlt, hle, hread.trans ht⟩, (fun hpa => nomatch hpc.symm.trans hpa),
    fun hne => absurd hpc hne, fun hr => nomatch hrec.symm.trans hr⟩
  rcases List.mem_append.mp he with he | he
  · exact hold hrec e he
  · rw [List.mem_singleton.mp he]
    exact Or.inr ⟨hpc, h2 hd⟩

/-- **What a turn does to the reception.** -/
theorem Taken.turn {clk : Clk} {s : RRState} {t : ℤ} (h : Taken w l) (hp : Posted w l)
    (hclk : Readings clk w.clock t) (hnow : w.rr.now ≤ w.clock) (hr : Receives clk w.rr s) :
    Taken { w with rr := s, clock := t } l := by
  cases hr with
  | @other s hs hpc hpc' =>
    obtain ⟨hq, ha, hr, hsy, hn⟩ := hs
    obtain ⟨old, new, hl, hf, hold⟩ := h.split
    refine ⟨⟨old, new, hl, by rw [← hf, hq], fun hrec e he => Or.inl ?_⟩, ?_, ?_,
      fun hp => absurd hp hpc'.1, fun hp => absurd hp hpc'.2, fun _ => ?_, ?_⟩
    · rcases hold (hr ▸ hrec) e he with hle | ⟨hp, -⟩
      · exact hle.trans_eq hsy.symm
      · exact absurd hp hpc
    · show ∀ e ∈ l, e.tick ≤ s.lastReceivedSync → e.sent <+: s.admitted
      rw [hsy, ha]
      exact h.covered
    · show s.lastReceivedSync ≤ w.gen.lastTime
      rw [hsy]
      exact h.synced
    · show s.receivingProcesses = true → ∀ e ∈ l, s.receiveNow ≤ e.tick →
        s.lastReceivedSync ≤ e.tick
      rw [hr, hsy, hn]
      exact h.first hpc
    · show s.receivingProcesses = false → w.gen.done = true ∧ ∀ d ∈ s.msgq, d.mtype ≠ 1
      rw [hr, hq]
      exact h.closed
  | listen hpc hrec hnew =>
    obtain ⟨old, new, hl, hf, hold⟩ := h.split
    refine ⟨⟨old, new, hl, hf, fun _ e he => Or.inl ?_⟩, h.covered, h.synced,
      fun _ => ⟨hrec, hnew, hnow.trans (hclk.2 _).1, (hclk.2 _).2⟩, (fun hp => nomatch hp),
      fun hne => absurd rfl hne, h.closed⟩
    rcases hold hrec e he with hle | ⟨hp, -⟩
    · exact hle
    · exact nomatch hpc.symm.trans hp
  | skip hpc hno =>
    obtain ⟨old, new, hl, hf, hold⟩ := h.split
    refine ⟨⟨old, new, hl, hf, fun hrec e he => Or.inl ?_⟩, h.covered, h.synced,
      (fun hp => nomatch hp), fun _ hrec => not_lt.mp fun hlt => hno ⟨hrec, hlt⟩,
      fun _ => h.first (by rw [hpc]; exact nofun), h.closed⟩
    rcases hold hrec e he with hle | ⟨hp, -⟩
    · exact hle
    · exact nomatch hpc.symm.trans hp
  | @arrive d rest hpc hrcv hd =>
    obtain ⟨hrec, hlt, hle, hread⟩ := h.waits hpc
    obtain ⟨old, new, hl, hf, hold⟩ := h.split
    rw [MsgQueue.filter_of_rcv_neg (by decide) hrcv, if_neg (by rw [hd]; decide),
      List.nil_append] at hf
    exact ⟨⟨old, new, hl, hf, hold⟩,
      fun e he hle => (h.covered e he hle).trans (List.prefix_append ..), h.synced,
      fun _ => ⟨hrec, hlt, hle, hread.trans hclk.1⟩, (fun hpa => nomatch hpc.symm.trans hpa),
      fun hne => absurd hpc hne, fun hr => nomatch hrec.symm.trans hr⟩
  | sync hpc hrcv hd hnew => exact h.sync hp hpc hrcv hd hnew
  | @last d rest hpc hrcv hd =>
    obtain ⟨old, new, hl, hf, -⟩ := h.split
    have hno := ne_one_of_rcv hrcv (by rw [hd]; decide)
    have hsent : w.gen.sent = w.rr.admitted := hp.all_admitted hno.1
    have hdone : w.gen.done = true := by
      have hmem : d ∈ w.rr.msgq := (MsgQueue.perm_of_rcv hrcv).mem_iff.mpr List.mem_cons_self
      rcases hp.types d hmem with hd' | hd' | ⟨-, hdone⟩
      · rw [hd] at hd'
        exact absurd hd' (by decide)
      · rw [hd] at hd'
        exact absurd hd' (by decide)
      · exact hdone
    rw [MsgQueue.filter_of_rcv_neg (by decide) hrcv, if_neg (by rw [hd]; decide),
      List.nil_append] at hf
    exact ⟨⟨old, new, hl, hf, (fun hr => nomatch hr)⟩, fun e he _ => hsent ▸ (hp.past e he).2,
      h.synced, (fun hpa => nomatch hpa), (fun _ hr => nomatch hr), (fun _ hr => nomatch hr),
      fun _ => ⟨hdone, hno.2⟩⟩
  | drop hpc hrcv h1 h5 h2 => exact h.drop hp hpc hclk.1 hrcv h1 h5 h2

/-- A process is sent, or the last message. -/
theorem Taken.post {d : ProcessData} {g : Generator} (h : Taken w l) (hd : d.mtype ≠ 2)
    (hlast : g.lastTime = w.gen.lastTime) (hopen : w.rr.receivingProcesses = true) :
    Taken (w.post d g) l := by
  obtain ⟨old, new, hl, hf, hold⟩ := h.split
  refine ⟨⟨old, new, hl, ?_, hold⟩, h.covered, ?_, h.waits, h.algo, h.first,
    fun hr => nomatch hopen.symm.trans hr⟩
  · show ((w.rr.msgq ++ [d]).filter _) = _
    rw [List.filter_append, hf, List.filter_singleton, decide_eq_false hd]
    exact List.append_nil _
  · show w.rr.lastReceivedSync ≤ g.lastTime
    rw [hlast]
    exact h.synced

/-- **Every step keeps the reception.** -/
theorem Step.taken (hst : Step P e w w') (hi : Inv (fun _ => True) (fun _ => True) w)
    (htime : w.rr.now ≤ w.clock) (hp : Posted w l) (h : Taken w l) :
    Taken w' (l ++ w.syncsOf e) := by
  have hsame : ∀ {w₁ : World}, Taken w₁ l → Taken w₁ (l ++ []) := fun h => by
    rwa [List.append_nil]
  -- while the generator sends, the scheduler receives
  have hopen : w.gen.done ≠ true → w.rr.receivingProcesses = true := fun hnot => by
    by_contra hno
    exact hnot (h.closed (Bool.eq_false_iff.mpr hno)).1
  cases hst with
  | sched hclk hs => exact hsame (h.turn hp hclk htime (hi.turn hs).receives)
  | child hs =>
    obtain ⟨c, -, -, -, ⟨-, rfl⟩ | ⟨-, -, rfl⟩⟩ := childStep_cases hs <;>
      exact hsame (h.of_same ⟨rfl, rfl, rfl, rfl, rfl⟩ rfl rfl le_rfl rfl rfl)
  | observe _ _ ht => exact hsame (h.of_same ⟨rfl, rfl, rfl, rfl, rfl⟩ rfl rfl ht rfl rfl)
  | @send _ t d q hcur hq hdue =>
    have hd : d.mtype = 1 := by
      refine (hi.good d (List.mem_append_left _ ?_)).2.2
      rw [hq]
      exact List.mem_cons_self
    exact hsame (h.post (by rw [hd]; decide) rfl
      (hopen fun hd => nomatch hcur.symm.trans (hp.done hd).2))
  | @sync _ t hcur hq =>
    have hlt := hp.current t hcur
    have hrec := hopen fun hd => nomatch hcur.symm.trans (hp.done hd).2
    obtain ⟨old, new, hl, hf, hold⟩ := h.split
    have hs : w.syncsOf .sync = [⟨t, w.gen.sent⟩] := by
      rw [syncsOf, hcur]
      rfl
    have hle := h.synced
    rw [hs]
    refine ⟨⟨old, new ++ [⟨t, w.gen.sent⟩], by rw [hl, List.append_assoc], ?_, hold⟩,
      fun e he hte => ?_, hle.trans hlt.le, h.waits, h.algo, fun hne hr e he hge => ?_,
      fun hr => nomatch hrec.symm.trans hr⟩
    · show ((w.rr.msgq ++ [syncMsg t]).filter _) = _
      rw [List.filter_append, hf, List.map_append]
      rfl
    · rcases List.mem_append.mp he with he | he
      · exact h.covered e he hte
      · -- the scheduler cannot be ahead of the generator
        rw [List.mem_singleton.mp he] at hte
        have hte : t ≤ w.rr.lastReceivedSync := hte
        omega
    · rcases List.mem_append.mp he with he | he
      · exact h.first hne hr e he hge
      · rw [List.mem_singleton.mp he]
        exact hle.trans hlt.le
  | last hq hcur hdone =>
    exact hsame (h.post (by decide) rfl (hopen (by rw [hdone]; exact nofun)))

/-! ### The result -/

/-- **The admission of processes.** -/
structure Admitted (w : World) (l : List Sync) : Prop where
  /-- Each process that was sent has been admitted or waits in the queue, in the order of
  sending. -/
  order : w.gen.sent = w.rr.admitted ++ w.rr.msgq.filter fun d => d.mtype = 1
  /-- Each admitted process has a handle of its own, which is in `currentPCBs` once until
  the process is finished. -/
  handles : w.rr.received = List.range w.rr.admitted.length ∧ w.rr.currentPCBs.Nodup ∧
    w.rr.received.Perm (w.rr.finished ++ w.rr.currentPCBs)
  pcb : ForallHeap (fun p x => ∃ d, w.rr.admitted[p]? = some d ∧ x.id = d.id ∧
    x.arrival = d.arrival ∧ x.runtime = d.runtime) w.rr.toMem
  /-- When `RR_algo` is called, all that was sent before the message for its tick is
  admitted, and this message will not be sent later. -/
  covered : w.rr.pc = .algo → (∀ e ∈ l, e.tick ≤ w.rr.now → e.sent <+: w.rr.admitted) ∧
    (w.rr.now ≤ w.gen.lastTime ∨ w.gen.done = true)
  /-- While `receiveProcesses` waits, no message is gone that would have ended the call. -/
  waits : w.rr.pc = .receive → w.rr.now ≤ w.rr.receiveNow ∧ w.rr.receiveNow ≤ w.clock ∧
    ∀ e ∈ l, w.rr.receiveNow ≤ e.tick → syncMsg e.tick ∈ w.rr.msgq
  /-- The message that ended the last call was the first one for a tick at or after the
  clock value that was read. -/
  first : w.rr.pc ≠ .receive → w.rr.receivingProcesses = true →
    ∀ e ∈ l, w.rr.receiveNow ≤ e.tick → w.rr.lastReceivedSync ≤ e.tick
  /-- The reception is over only when no process is left. -/
  closed : w.rr.receivingProcesses = false → w.gen.queue = [] ∧ ∀ d ∈ w.rr.msgq, d.mtype ≠ 1
  /-- No process has been dispatched before its arrival. -/
  timely : ForallHeap (fun _ x => (x.startTime = -1 ∨ x.arrival ≤ x.startTime) ∧
    0 ≤ x.waitingTime) w.rr.toMem

/-- What is known in every state of a recorded run. -/
structure Recorded (w : World) (l : List Sync) : Prop where
  posted : Posted w l
  taken : Taken w l
  entered : Entered w.rr
  timely : ForallHeap (fun _ x => x.Timely w.clock w.clock) w.rr.toMem

/-- The invariants give the result. -/
theorem Recorded.admitted (h : Recorded w l) (hcons : Conserved P.quantum w.rr) : Admitted w l where
  order := h.posted.order
  handles := ⟨h.entered.handles, hcons.live.1, hcons.live.2.1⟩
  pcb := h.entered.pcb
  covered hpc := by
    cases hrec : w.rr.receivingProcesses with
    | true =>
      have hle := h.taken.algo hpc hrec
      exact ⟨fun e he ht => h.taken.covered e he (ht.trans hle),
        Or.inl (hle.trans h.taken.synced)⟩
    | false =>
      obtain ⟨hdone, hno⟩ := h.taken.closed hrec
      exact ⟨fun e he _ => h.posted.all_admitted hno ▸ (h.posted.past e he).2, Or.inr hdone⟩
  waits hpc := by
    obtain ⟨hrec, hlt, hle, hread⟩ := h.taken.waits hpc
    obtain ⟨old, new, hl, hq, hold⟩ := h.taken.split
    refine ⟨hle, hread, fun e he hge => ?_⟩
    rw [hl] at he
    rcases List.mem_append.mp he with he | he
    · rcases hold hrec e he with hlast | ⟨-, hlast⟩ <;> omega
    · have hmem : syncMsg e.tick ∈ w.rr.msgq.filter fun d => d.mtype = 2 :=
        hq ▸ List.mem_map_of_mem he
      exact (List.mem_filter.mp hmem).1
  first := h.taken.first
  closed hrec := ⟨(h.posted.done (h.taken.closed hrec).1).1, (h.taken.closed hrec).2⟩
  timely p x hx := ⟨(h.timely p x hx).started, (h.timely p x hx).waited⟩

theorem Step.recorded (hst : Step P e w w') (hon : Onward e)
    (hi : Inv (fun _ => True) (fun _ => True) w) (ha : Arrived w) (htime : w.rr.now ≤ w.clock)
    (h : Recorded w l) : Recorded w' (l ++ w.syncsOf e) := by
  refine ⟨hst.posted hi ha h.posted, hst.taken hi htime h.posted h.taken, ?_, ?_⟩
  · cases hst with
    | sched hclk hs => exact ((hi.turn hs).entered h.entered).1
    | child hs =>
      obtain ⟨c, -, -, -, ⟨-, rfl⟩ | ⟨-, -, rfl⟩⟩ := childStep_cases hs <;>
        exact ⟨h.entered.size, h.entered.handles, h.entered.pcb⟩
    | _ => exact ⟨h.entered.size, h.entered.handles, h.entered.pcb⟩
  · cases hst with
    | sched hclk hs => exact (hi.turn hs).timely h.timely hclk.2 hon ha.clock ha.msgq
    | child hs =>
      obtain ⟨c, -, -, -, ⟨-, rfl⟩ | ⟨-, -, rfl⟩⟩ := childStep_cases hs <;> exact h.timely
    | observe _ _ ht =>
      intro p x hx
      obtain ⟨harr, hstop, hstart, hwait⟩ := h.timely p x hx
      exact ⟨harr.trans ht, hstop.trans ht, hstart, hwait⟩
    | _ => exact h.timely

theorem start_recorded (l : List ProcessData) {t : ℤ} (ht : 0 ≤ t) : Recorded (start l t) [] where
  posted := ⟨List.Pairwise.nil, List.forall_mem_nil _, show (-1 : ℤ) ≤ t by omega,
    (fun u hu => nomatch hu), (fun hd => nomatch hd), List.forall_mem_nil _, rfl⟩
  taken := ⟨⟨[], [], rfl, rfl, fun _ => List.forall_mem_nil _⟩, List.forall_mem_nil _, le_rfl,
    (fun hp => nomatch hp), (fun hp => nomatch hp), fun _ _ => List.forall_mem_nil _,
    fun hr => nomatch hr⟩
  entered := ⟨rfl, rfl, fun p x hx => nomatch hx⟩
  timely p x hx := nomatch hx

/-- A recorded run is a run. -/
theorem admitting_reachable {a : Admitting} (h : (admitting P).Reachable a) :
    (system P).Reachable a.world := by
  refine h.map (f := Admitting.world) ?_ ?_
  · rintro a ⟨ha, -⟩
    exact ha
  · rintro a b - ⟨e, hst, -, -⟩
    exact Or.inl ⟨e, hst⟩

theorem admitting_recorded {a : Admitting} (h : (admitting P).Reachable a) :
    Recorded a.world a.syncs := by
  refine h.invariant_of (J := fun a => (system P).Reachable a.world)
    (P := fun a => Recorded a.world a.syncs) (fun _ => admitting_reachable) ?_ ?_
  · rintro a ⟨⟨l, t, -, -, ht, ha⟩, hs⟩
    rw [ha, hs]
    exact start_recorded l ht
  · rintro a b hr h ⟨e, hst, hon, hs⟩
    rw [hs]
    exact hst.recorded hon (reachable_inv hr) (reachable_arrived hr) (reachable_timed hr).now h

/-- **The admission protocol.** In every state of every run, no process is lost or
admitted twice, `RR_algo` knows of all processes that were sent before the message for its
tick, `receiveProcesses` waits for the first message at or after the clock value it has
read, and no process is dispatched before its arrival. A process enters `currentPCBs` and
the ready queue in the step that admits it. -/
theorem admitting_admitted {a : Admitting} (h : (admitting P).Reachable a) :
    Admitted a.world a.syncs ∧
      ∀ e w, Step P e a.world w → Enters a.world.rr w.rr := by
  have hr := admitting_reachable h
  have hrec := admitting_recorded h
  refine ⟨hrec.admitted (reachable_conserved hr), fun e w hst => ?_⟩
  cases hst with
  | sched hclk hs => exact (((reachable_inv hr).turn hs).entered hrec.entered).2
  | child hs =>
    obtain ⟨c, -, -, -, ⟨-, rfl⟩ | ⟨-, -, rfl⟩⟩ := childStep_cases hs <;>
      exact Or.inl ⟨rfl, List.Subset.refl _⟩
  | _ => exact Or.inl ⟨rfl, List.Subset.refl _⟩

/-! ### Two explicit runs -/

/-- Make a move, and record the message for the tick. -/
def record (P : Params) (a : Admitting) (mv : Move) : Option Admitting :=
  (a.world.play P mv).map fun w => ⟨w, a.syncs ++ a.world.syncsOf mv.event⟩

theorem onward_event {mv : Move} (h : w.play P mv = some w') : Onward mv.event := by
  cases mv with
  | sched a b =>
    simp only [play] at h
    split_ifs at h with hab
    exact hab.1
  | _ => trivial

theorem record_step (a : Admitting) (mv : Move) (b : Admitting) (h : record P a mv = some b) :
    (admitting P).step a b := by
  obtain ⟨w, hw, rfl⟩ := Option.map_eq_some_iff.mp h
  exact ⟨mv.event, play_step hw, onward_event hw, rfl⟩

/-- An explicit run with one process. -/
theorem record_reachable {a : Admitting} {moves : List Move}
    (h : TransitionSystem.playAll (record P) ⟨start [soleProcess 2] 1, []⟩ moves = some a) :
    (admitting P).Reachable a :=
  TransitionSystem.Reachable.playAll record_step
    (.init ⟨⟨_, 1, workload_sole 2, fun _ _ => trivial, by decide, rfl⟩, rfl⟩) h

/-- The first tick: the process is sent in front of the message for tick 1, received and
dispatched. -/
theorem admitting_admitted_firstTick : ∃ a : Admitting,
    a.syncs = [⟨1, [soleProcess 2]⟩] ∧ a.world.rr.currProcess = some 0 ∧
      Admitted a.world a.syncs := by
  have hrun : (TransitionSystem.playAll (record (quietParams 2)) ⟨start [soleProcess 2] 1, []⟩
      firstTick).map (fun a => (a.syncs.map fun e => (e.tick, e.sent), a.world.rr.currProcess)) =
        some ([(1, [soleProcess 2])], some 0) := by
    decide +kernel
  obtain ⟨a, ha, he⟩ := Option.map_eq_some_iff.mp hrun
  obtain ⟨hs, hcur⟩ := Prod.mk.inj he
  refine ⟨a, ?_, hcur, (admitting_admitted (record_reachable ha)).1⟩
  obtain ⟨w, l⟩ := a
  cases l with
  | nil => exact nomatch hs
  | cons e l =>
    obtain ⟨he, hl⟩ := List.cons.inj hs
    obtain ⟨hte, hse⟩ := Prod.mk.inj he
    obtain rfl := List.map_eq_nil_iff.mp hl
    rw [← hte, ← hse]

/-- The scheduler begins to receive at tick 1, and the generator looks at the clock for the
first time at tick 2. -/
def lateRun : List Move :=
  List.replicate 5 (.sched 1 1) ++ [.observe 2, .send, .sync, .sched 2 2, .sched 2 2]

/-- **The scheduler waits for a message of a later tick** than the clock value it has read, if
the generator has missed that tick. -/
theorem not_synced_at_read : ¬∀ (P : Params) (a : Admitting), (admitting P).Reachable a →
    a.world.rr.lastReceivedSync ≤ a.world.rr.receiveNow := by
  intro hall
  have hrun : (TransitionSystem.playAll (record (quietParams 2)) ⟨start [soleProcess 2] 1, []⟩
      lateRun).map (fun a => (a.world.rr.lastReceivedSync, a.world.rr.receiveNow)) =
        some (2, 1) := by
    decide +kernel
  obtain ⟨a, ha, he⟩ := Option.map_eq_some_iff.mp hrun
  obtain ⟨hsync, hread⟩ := Prod.mk.inj he
  have hle := hall _ a (record_reachable ha)
  rw [hsync, hread] at hle
  exact absurd hle (by decide)

end World

end CpuScheduler
