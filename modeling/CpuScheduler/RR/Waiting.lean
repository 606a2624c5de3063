import CpuScheduler.Lib.Line
import CpuScheduler.RR.Slices

/-!
# How long a process waits

The ready queue is first come, first served, and the law of the time slices bounds how long
each process in front can go on. So a process that enters the queue is dispatched in time: nobody
overtakes it, and for each of those in front of it, and for the one that is running, a quantum
and the tick of a context switch pass at most (`CpuScheduler.World.waits_bounded`). Page faults,
processes that come back from the block queue, arrivals and extended quanta do not change that.

The invariant is about the time at which the processor is next given away
(`CpuScheduler.RRState.vacancy`), and it adds to it what those in front of a process can take
(`CpuScheduler.RRState.Awaited`).
-/

namespace CpuScheduler

namespace RRState

open Fallible Mem Line

variable {K : Mem → Prop} {P : Params} {clk : Clk} {s s' : RRState} {en en' : Ptr → ℤ}
  {ah ah' : Ptr → List Ptr} {q : ℤ} {r r' : List Ptr} {p : Ptr}

/-- **Nobody overtakes**: those in front now were in front before. -/
theorem Requeued.inFront (h : Requeued r r') (hn : r.Nodup) (hp : p ∈ r) (hp' : p ∈ r') :
    (inFront p r').Sublist (inFront p r) := by
  obtain ⟨l, u, hl, rfl, hu⟩ := h
  have hpl : p ∈ l := (List.mem_append.mp hp').resolve_right fun hm => hu p hm hp
  rw [inFront_append hpl]
  exact inFront_sublist hl hpl hn

/-- The tick behind which the processor is given away next. -/
def vacancy (s : RRState) : ℤ :=
  if s.currProcess = none then
    if s.pc.inTurn then max s.now s.contextSwitchUntil - 1 else s.now
  else s.nextPreemtionTime

/-- Those in front, and the running process, have a quantum and a context switch each. -/
def latest (q entered : ℤ) (ahead : List Ptr) : ℤ := entered + (ahead.length + 1) * (q + 1)

/-- When the processor is given away, if each of those in front of a process uses up its
quantum. -/
def turnOf (q : ℤ) (s : RRState) (p : Ptr) : ℤ :=
  s.vacancy + (inFront p s.readyQueue).length * (q + 1)

/-- **Nobody waits too long.** A process has entered the ready queue at the time `en`, behind
those of `ah`. -/
structure Awaited (q : ℤ) (s : RRState) (en : Ptr → ℤ) (ah : Ptr → List Ptr) : Prop where
  switch : s.contextSwitchUntil ≤ s.now + 1
  begun : s.lastTick = -1 → s.readyQueue = [] ∧ s.contextSwitchUntil ≤ 0
  near : s.vacancy ≤ s.now + q + 1
  entered : ∀ p ∈ s.readyQueue, 0 ≤ en p
  place : ∀ p ∈ s.readyQueue, (inFront p s.readyQueue).Sublist (ah p)
  inTime : ∀ p ∈ s.readyQueue, s.turnOf q p ≤ latest q (en p) (ah p)

/-- Those who enter find the others in front. -/
def Places (s s' : RRState) (ah ah' : Ptr → List Ptr) : Prop :=
  ∀ p, ah' p = if p ∈ s'.readyQueue ∧ p ∉ s.readyQueue then inFront p s'.readyQueue else ah p

theorem vacancy_running (h : s.currProcess ≠ none) : s.vacancy = s.nextPreemtionTime := by
  rw [vacancy, if_neg h]

theorem vacancy_inside (h : s.currProcess = none) (hpc : s.pc.inTurn = true) :
    s.vacancy = max s.now s.contextSwitchUntil - 1 := by
  rw [vacancy, if_pos h, if_pos hpc]

theorem vacancy_outside (h : s.currProcess = none) (hpc : s.pc.inTurn = false) :
    s.vacancy = s.now := by
  rw [vacancy, if_pos h, if_neg (by rw [hpc]; simp)]

/-- Inside a turn, the time does not change. -/
theorem vacancy_go (hcur : s'.currProcess = s.currProcess)
    (hnext : s'.nextPreemtionTime = s.nextPreemtionTime) (hnow : s'.now = s.now)
    (hpc : s.pc.inTurn = true) (hpc' : s'.pc.inTurn = true)
    (hcsu : s'.contextSwitchUntil = s.contextSwitchUntil ∨ s'.contextSwitchUntil ≤ s.now) :
    s'.vacancy ≤ s.vacancy := by
  by_cases hnone : s.currProcess = none
  · rw [vacancy_inside (hcur.trans hnone) hpc', vacancy_inside hnone hpc, hnow]
    omega
  · rw [vacancy_running (hcur ▸ hnone), vacancy_running hnone, hnext]

/-- So it does between two turns. -/
theorem vacancy_stay (hcur : s'.currProcess = s.currProcess)
    (hnext : s'.nextPreemtionTime = s.nextPreemtionTime) (hnow : s'.now = s.now)
    (hpc : s.pc.inTurn = false) (hpc' : s'.pc.inTurn = false) : s'.vacancy = s.vacancy := by
  by_cases hnone : s.currProcess = none
  · rw [vacancy_outside (hcur.trans hnone) hpc', vacancy_outside hnone hpc, hnow]
  · rw [vacancy_running (hcur ▸ hnone), vacancy_running hnone, hnext]

/-- A turn begins, and the context switch is over. -/
theorem vacancy_tick (hcur : s'.currProcess = s.currProcess)
    (hnext : s'.nextPreemtionTime = s.nextPreemtionTime) (hnow : s'.now = s.now + 1)
    (hpc : s.pc.inTurn = false) (hpc' : s'.pc.inTurn = true)
    (hcsu : s'.contextSwitchUntil ≤ s.now + 1) : s'.vacancy ≤ s.vacancy := by
  by_cases hnone : s.currProcess = none
  · rw [vacancy_inside (hcur.trans hnone) hpc', vacancy_outside hnone hpc, hnow]
    omega
  · rw [vacancy_running (hcur ▸ hnone), vacancy_running hnone, hnext]

/-- The running process gives the processor up. -/
theorem vacancy_free (hcur : s'.currProcess = none) (hrun : s.currProcess ≠ none)
    (hpc' : s'.pc.inTurn = true) (hnow : s'.now = s.now)
    (hcsu : s'.contextSwitchUntil = s.now + 1) (hmissed : s.now ≤ s.nextPreemtionTime) :
    s'.vacancy ≤ s.vacancy := by
  rw [vacancy_inside hcur hpc', vacancy_running hrun, hnow, hcsu]
  omega

theorem mul_length_le (hq : 0 ≤ q) {l r : List Ptr} (h : l.length ≤ r.length) :
    (l.length : ℤ) * (q + 1) ≤ r.length * (q + 1) :=
  mul_le_mul_of_nonneg_right (by exact_mod_cast h) (by omega)

/-- **What a step has to show**: for those who are in the queue before and after it, and for the
time at which the processor is given away. -/
theorem Awaited.step (h : Awaited q s en ah) (he : Entries s s' en en')
    (ha : Places s s' ah ah') (hr : Requeued s.readyQueue s'.readyQueue)
    (hn : s.readyQueue.Nodup) (hnow : 0 ≤ s'.now)
    (hswitch : s'.contextSwitchUntil ≤ s'.now + 1)
    (hbegun : s'.lastTick = -1 → s'.readyQueue = [] ∧ s'.contextSwitchUntil ≤ 0)
    (hnear : s'.vacancy ≤ s'.now + q + 1)
    (hold : ∀ p ∈ s.readyQueue, p ∈ s'.readyQueue →
      s'.turnOf q p ≤ s.turnOf q p ∨ s'.turnOf q p ≤ latest q (en p) (ah p)) :
    Awaited q s' en' ah' := by
  have hstay : ∀ p ∈ s.readyQueue, ah' p = ah p := fun p hp => by
    rw [ha p, if_neg fun hc => hc.2 hp]
  have hnew : ∀ p ∈ s'.readyQueue, p ∉ s.readyQueue →
      en' p = s'.now ∧ ah' p = inFront p s'.readyQueue := fun p hp' hp => by
    rw [he p, ha p, if_pos ⟨hp', hp⟩, if_pos ⟨hp', hp⟩]
    exact ⟨rfl, rfl⟩
  refine ⟨hswitch, hbegun, hnear, fun p hp' => ?_, fun p hp' => ?_, fun p hp' => ?_⟩
  · by_cases hp : p ∈ s.readyQueue
    · rw [he.old hp]
      exact h.entered p hp
    · rw [(hnew p hp' hp).1]
      exact hnow
  · by_cases hp : p ∈ s.readyQueue
    · rw [hstay p hp]
      exact (hr.inFront hn hp hp').trans (h.place p hp)
    · rw [(hnew p hp' hp).2]
  · by_cases hp : p ∈ s.readyQueue
    · rw [hstay p hp, he.old hp]
      rcases hold p hp hp' with hle | hle
      · exact hle.trans (h.inTime p hp)
      · exact hle
    · obtain ⟨h₁, h₂⟩ := hnew p hp' hp
      rw [h₁, h₂, turnOf, latest, add_mul, one_mul]
      omega

/-- Those in front take no longer when the processor is given away no later. -/
theorem turnOf_le (hq : 0 ≤ q) (hr : Requeued s.readyQueue s'.readyQueue)
    (hn : s.readyQueue.Nodup) (hv : s'.vacancy ≤ s.vacancy) (hp : p ∈ s.readyQueue)
    (hp' : p ∈ s'.readyQueue) : s'.turnOf q p ≤ s.turnOf q p :=
  add_le_add hv (mul_length_le hq (hr.inFront hn hp hp').length_le)

/-- **A dispatch**: there is one fewer in front, and he has a quantum and a context switch. -/
theorem turnOf_dispatch {f : Ptr} {rest u : List Ptr} (hs : s.readyQueue = f :: rest)
    (hs' : s'.readyQueue = rest ++ u)
    (hf : f ∉ s'.readyQueue) (hv : s'.vacancy ≤ s.vacancy + (q + 1)) (hp : p ∈ s.readyQueue)
    (hp' : p ∈ s'.readyQueue) : s'.turnOf q p ≤ s.turnOf q p := by
  have hne : f ≠ p := fun he => hf (he ▸ hp')
  have hrest : p ∈ rest := by
    rw [hs] at hp
    exact (List.mem_cons.mp hp).resolve_left (Ne.symm hne)
  rw [turnOf, turnOf, hs, hs', inFront_append hrest, inFront_cons_of_ne hne, List.length_cons]
  push_cast
  rw [add_mul, one_mul]
  omega

/-- In a preemption the front of the queue leaves it, and others have come to its end. -/
theorem front_leaves {f : Ptr} {u rest : List Ptr} (hr : r ≠ []) (hn : (r ++ [p] ++ u).Nodup)
    (hq : r ++ [p] ++ u = f :: rest) :
    (∃ front back, r = f :: front ∧ rest = front ++ back) ∧ f ∉ rest := by
  cases r with
  | nil => exact absurd rfl hr
  | cons g front =>
    rw [hq] at hn
    rw [List.append_assoc] at hq
    obtain ⟨rfl, rfl⟩ := List.cons.inj hq
    exact ⟨⟨front, [p] ++ u, rfl, rfl⟩, (List.nodup_cons.mp hn).1⟩

/-- **What `RR_algo` does with the processor**, in the tick `s.now`. -/
inductive Gives (q : ℤ) (clk : Clk) (s s' : RRState) : Prop
  /-- Nothing, and if nobody is running, then nobody is ready, or it is not called yet. -/
  | keep (hcur : s'.currProcess = s.currProcess)
      (hnext : s'.nextPreemtionTime = s.nextPreemtionTime) (hready : s'.readyQueue = s.readyQueue)
      (hidle : s.currProcess = none → s.readyQueue = [] ∨ s.now ≤ 0)
  /-- The running process gets another quantum. -/
  | extend (hrun : s.currProcess ≠ none) (hcur : s'.currProcess = s.currProcess)
      (hnext : s'.nextPreemtionTime = s.now + q) (hready : s'.readyQueue = s.readyQueue)
      (hext : s.mayExtend clk = .ok true)
  /-- It is given to the first in the queue, at once or after a preemption. -/
  | give {f : Ptr} {t : ℤ}
      (hline : ∃ front back, s.readyQueue = f :: front ∧ s'.readyQueue = front ++ back)
      (hf : f ∉ s'.readyQueue) (hcur : s'.currProcess ≠ none) (hnext : s'.nextPreemtionTime = t + q)
      (ht : (s.currProcess = none ∧ t = s.now) ∨
        (s.currProcess ≠ none ∧ s.nextPreemtionTime ≤ s.now ∧ t = s.now + 1))

theorem Awaited.gives (h : Awaited q s en ah) (hg : Gives q clk s s') (hq : 0 ≤ q)
    (hpc : s.pc.inTurn = true) (hpc' : s'.pc.inTurn = false) (hnow : s'.now = s.now)
    (hnow0 : 0 ≤ s.now) (hopen : s.contextSwitchUntil ≤ s.now) (htick : s'.lastTick ≠ -1)
    (hswitch : s'.contextSwitchUntil ≤ s'.now + 1) (hl : Lined s en)
    (hfront : clk .frontArrival = s.now) (hmissed : s.currProcess ≠ none →
      s.now ≤ s.nextPreemtionTime) (he : Entries s s' en en') (ha : Places s s' ah ah')
    (hr : Requeued s.readyQueue s'.readyQueue) (hn : s.readyQueue.Nodup) :
    Awaited q s' en' ah' := by
  have hnear := h.near
  -- those who are in the queue at tick 0, or whose front has just arrived, have entered now
  have hfresh : (∀ p ∈ s.readyQueue, s.now ≤ en p) → s'.vacancy ≤ s.now + q →
      ∀ p ∈ s.readyQueue, p ∈ s'.readyQueue → s'.turnOf q p ≤ latest q (en p) (ah p) := by
    intro hall hv p hp hp'
    have hen := hall p hp
    have hlen := mul_length_le hq ((hr.inFront hn hp hp').trans (h.place p hp)).length_le
    rw [turnOf, latest, add_mul, one_mul]
    omega
  cases hg with
  | keep hcur hnext hready hidle =>
    by_cases hnone : s.currProcess = none
    · have hv := vacancy_outside (hcur.trans hnone) hpc'
      refine h.step he ha hr hn (hnow ▸ hnow0) hswitch (fun hc => absurd hc htick) (by omega)
        fun p hp hp' => Or.inr ?_
      rcases hidle hnone with hnil | hzero
      · rw [hnil] at hp
        exact absurd hp List.not_mem_nil
      · exact hfresh (fun p hp => hzero.trans (h.entered p hp)) (by omega) p hp hp'
    · have hv := vacancy_running (hcur ▸ hnone)
      rw [hnext, ← vacancy_running hnone] at hv
      exact h.step he ha hr hn (hnow ▸ hnow0) hswitch (fun hc => absurd hc htick) (by omega)
        fun p hp hp' => Or.inl (turnOf_le hq hr hn hv.le hp hp')
  | extend hrun hcur hnext hready hext =>
    have hv := vacancy_running (hcur ▸ hrun)
    rw [hnext] at hv
    exact h.step he ha hr hn (hnow ▸ hnow0) hswitch (fun hc => absurd hc htick) (by omega)
      fun p hp hp' => Or.inr (hfresh (hl.extend hext hfront) hv.le p hp hp')
  | @give f t hline hf hcur hnext ht =>
    obtain ⟨front, back, hs, hs'⟩ := hline
    have hv := vacancy_running hcur
    rw [hnext] at hv
    refine h.step he ha hr hn (hnow ▸ hnow0) hswitch (fun hc => absurd hc htick) (by omega)
      fun p hp hp' => Or.inl (turnOf_dispatch hs hs' hf ?_ hp hp')
    rcases ht with ⟨hnone, rfl⟩ | ⟨hrun, hdue, rfl⟩
    · have := vacancy_inside hnone hpc
      omega
    · have := vacancy_running hrun
      have := hmissed hrun
      omega

/-- **`RR_algo` in lockstep.** -/
theorem Turn.gives {t : ℤ} (ht : Turn K P clk s s') (hpc : s.pc = .algo)
    (hclk : clk = World.readings s.now t)
    (htime : t = if s.Preempting clk then s.now + 1 else s.now) (hnow : 0 ≤ s.now)
    (hopen : s.contextSwitchUntil = -1) (hn : s.readyQueue.Nodup) :
    Gives P.quantum clk s s' ∧ s'.now = s.now ∧ s'.lastTick = s.lastTick ∧ s'.pc = .last ∧
      s'.contextSwitchUntil ≤ s.now + 1 := by
  have hread : ∀ x, clk x = if World.afterWait x then t else s.now := fun x => by rw [hclk]; rfl
  have hnx : clk .nextPreemption = t := hread .nextPreemption
  cases ht with
  | @algo s₁ m print cl _ hdec hm _ =>
    obtain ⟨n, hperm⟩ := permit_eq { s₁ with toMem := m, lastPrint := print, clears := cl }
    rw [hperm]
    have hcur : m.currProcess = s₁.currProcess := hm.cur
    rcases hdec with ⟨hpos, hdec⟩ | ⟨hneg, rfl⟩
    · cases hdec with
      | stay hrun hidle =>
        exact ⟨.keep hcur rfl rfl fun hnone => Or.inl (hidle hnone), rfl, rfl, rfl, by
          show s.contextSwitchUntil ≤ _
          omega⟩
      | @extend p hp hext =>
        have hx : clk .extendNext = s.now := hread .extendNext
        refine ⟨.extend (by rw [hp]; simp) hcur ?_ rfl hext.1, rfl, rfl, rfl, ?_⟩
        · show clk .extendNext + P.quantum = _
          rw [hx]
        · show s.contextSwitchUntil ≤ _
          omega
      | @preempt p x s₂ _ hp hx hdue hwait hu hheld hbefore hdisp =>
        have hpre : s.Preempting clk := ⟨by rw [hp]; simp, hpos, hdue⟩
        rw [if_pos hpre] at htime
        have hready : s.readyQueue ≠ [] :=
          hpre.ready ((hread .extendDue).trans (hread .preemptDue).symm)
        have hnodup := hheld.toCustody.ready_nodup
        have hdue' : s.nextPreemtionTime ≤ s.now := by
          have := hdue.1
          rwa [hread .preemptDue] at this
        have hsw : clk .switchUntil = s.now := hread .switchUntil
        obtain ⟨m', u, b, n, hm', -, rfl⟩ := hu
        have hnodup : (s.readyQueue ++ [p] ++ u).Nodup := hnodup
        cases hdisp with
        | @intro f y m'' rest line hq _ _ hm'' _ =>
          have hq : s.readyQueue ++ [p] ++ u = f :: rest := hq
          have hfront := front_leaves hready hnodup hq
          have hcur' : m.currProcess = some f := hcur.trans hm''.cur
          refine ⟨.give hfront.1 hfront.2 ?_ ?_ (Or.inr ⟨by rw [hp]; simp, hdue', htime⟩), rfl, rfl,
            rfl, ?_⟩
          · show m.currProcess ≠ none
            rw [hcur']
            simp
          · show clk .nextPreemption + P.quantum = _
            rw [hnx]
          · show clk .switchUntil + 1 ≤ _
            rw [hsw]
      | @dispatch s₂ hp hdisp =>
        have hnot : ¬s.Preempting clk := fun hpre => hpre.1 hp
        rw [if_neg hnot] at htime
        cases hdisp with
        | @intro f y m' rest line hq _ _ hm' _ =>
          have hcur' : m.currProcess = some f := hcur.trans hm'.cur
          rw [hq] at hn
          refine ⟨.give ⟨rest, [], hq, (List.append_nil rest).symm⟩ (List.nodup_cons.mp hn).1 ?_ ?_
            (Or.inl ⟨hp, htime⟩), rfl, rfl, rfl, ?_⟩
          · show m.currProcess ≠ none
            rw [hcur']
            simp
          · show clk .nextPreemption + P.quantum = _
            rw [hnx]
          · show s.contextSwitchUntil ≤ _
            omega
    · exact ⟨.keep hcur rfl rfl fun _ => Or.inr hneg, rfl, rfl, rfl, by
        show s₁.contextSwitchUntil ≤ _
        omega⟩
  | _ hpc' => exact absurd (hpc.symm.trans hpc') (by simp)

/-- The other parties do not touch what the law is about. -/
theorem Awaited.of_eq (h : Awaited q s en ah) (hm : s'.toMem = s.toMem)
    (hrq : s'.readyQueue = s.readyQueue) (hnow : s'.now = s.now) (hlast : s'.lastTick = s.lastTick)
    (hnext : s'.nextPreemtionTime = s.nextPreemtionTime)
    (hcsu : s'.contextSwitchUntil = s.contextSwitchUntil) (hpc : s'.pc = s.pc) (hen : en' = en)
    (hah : ah' = ah) : Awaited q s' en' ah' := by
  have hcur : s'.currProcess = s.currProcess := congrArg Mem.currProcess hm
  have hv : s'.vacancy = s.vacancy := by
    rw [vacancy, vacancy, hcur, hnow, hnext, hcsu, hpc]
  have hturn : ∀ p, s'.turnOf q p = s.turnOf q p := fun p => by rw [turnOf, turnOf, hv, hrq]
  subst hen hah
  refine ⟨?_, ?_, ?_, ?_, ?_, fun p hp => ?_⟩
  · rw [hcsu, hnow]
    exact h.switch
  · rw [hrq, hlast, hcsu]
    exact h.begun
  · rw [hv, hnow]
    exact h.near
  · rw [hrq]
    exact h.entered
  · rw [hrq]
    exact h.place
  · rw [hturn p]
    exact h.inTime p (hrq ▸ hp)

/-- A turn that does not give the processor away. -/
theorem Awaited.later (h : Awaited q s en ah) (hq : 0 ≤ q) (hv : s'.vacancy ≤ s.vacancy)
    (hnow : s.now ≤ s'.now) (hnow0 : 0 ≤ s'.now) (hcsu : s'.contextSwitchUntil ≤ s'.now + 1)
    (hbegun : s'.lastTick = -1 → s'.readyQueue = [] ∧ s'.contextSwitchUntil ≤ 0)
    (he : Entries s s' en en')
    (ha : Places s s' ah ah') (hr : Requeued s.readyQueue s'.readyQueue)
    (hn : s.readyQueue.Nodup) : Awaited q s' en' ah' := by
  have := h.near
  exact h.step he ha hr hn hnow0 hcsu hbegun (by omega) fun p hp hp' =>
    Or.inl (turnOf_le hq hr hn hv hp hp')

end RRState

namespace World

open RRState Line

variable {P : Params} {w w' : World} {e : Event} {en en' : Ptr → ℤ} {ah ah' : Ptr → List Ptr}
  {since : ℤ}

/-! ### The runs -/

/-- **Nothing else gives the processor away.** -/
theorem Awaited.other {q : ℤ} {clk : Clk} {s : RRState} {t : ℤ} (hq : 1 ≤ q)
    (ht : Turn (fun _ => True) P clk w.rr s) (hpc : w.rr.pc ≠ .algo)
    (hclk : Readings clk w.clock t) (hlock : Lockstep w (.sched clk t)) (htick : Ticking w)
    (hcl : Clocked w.rr) (hd : Due q w.rr en since) (h : Awaited q w.rr en ah)
    (he : Entries w.rr s en en') (ha : Places w.rr s ah ah') (hr : Requeued w.rr.readyQueue s.readyQueue)
    (hn : w.rr.readyQueue.Nodup) : Awaited q s en' ah' := by
  have hswitch := h.switch
  have hnow0 := htick.tick
  -- a phase that stays inside the turn
  have hinside : w.rr.pc.inTurn = true → s.now = w.rr.now → s.lastTick = w.rr.lastTick →
      s.vacancy ≤ w.rr.vacancy → s.contextSwitchUntil ≤ w.rr.now + 1 →
      Awaited q s en' ah' := by
    intro hin hnow hlast hv hcsu
    have hbegun : w.rr.lastTick ≠ -1 := by
      have := (htick.turn hin).2
      omega
    exact h.later (by omega) hv (by omega) (by omega) (by omega)
      (fun hc => absurd (hlast.symm.trans hc) hbegun) he ha hr hn
  cases ht with
  | algo hpc' => exact absurd hpc' hpc
  | exit hpc' _ _ _ hcur =>
    have hv : ({ w.rr with pc := .exited } : RRState).vacancy = w.rr.vacancy :=
      vacancy_stay rfl rfl rfl (by rw [hpc']; rfl) rfl
    exact h.later (by omega) hv.le le_rfl hnow0 hswitch h.begun he ha hr hn
  | spin hpc' => exact h.later (by omega) le_rfl le_rfl hnow0 hswitch h.begun he ha hr hn
  | tick hpc' hnew =>
    rw [Lockstep, hpc'] at hlock
    have hpos : 0 ≤ clk .now := le_trans htick.nonneg (hclk.2 .now).1
    have hbegun : clk .now ≠ -1 := by omega
    have hout : w.rr.pc.inTurn = false := by rw [hpc']; rfl
    rcases htick.top hpc' with ⟨hfirst, hnone⟩ | ⟨hlast, -⟩
    · -- the first turn
      obtain ⟨hnil, hcsu⟩ := h.begun hfirst
      refine h.step he ha hr hn hpos ?_ (fun hc => absurd hc hbegun) ?_ fun p hp _ => ?_
      · show w.rr.contextSwitchUntil ≤ clk .now + 1
        omega
      · have hv := vacancy_inside (s := { w.rr with
          now := clk .now, lastTick := clk .now, pc := .requests }) hnone rfl
        refine hv.trans_le ?_
        show max (clk .now) w.rr.contextSwitchUntil - 1 ≤ clk .now + q + 1
        omega
      · rw [hnil] at hp
        exact absurd hp List.not_mem_nil
    · have hnext : clk .now = w.rr.now + 1 := by
        rcases hlock with ⟨hsame, -⟩ | ⟨hnext, -⟩
        · exact absurd hsame hnew
        · omega
      refine h.later (by omega) (vacancy_tick rfl rfl hnext hout rfl hswitch) ?_ hpos ?_
        (fun hc => absurd hc hbegun) he ha hr hn
      · show w.rr.now ≤ clk .now
        omega
      · show w.rr.contextSwitchUntil ≤ clk .now + 1
        omega
  | idle hpc' hcur =>
    have hin : w.rr.pc.inTurn = true := by rw [hpc']; rfl
    exact hinside hin rfl rfl (vacancy_go rfl rfl rfl hin rfl (Or.inl rfl)) hswitch
  | @serve s₁ hpc' hcur hs =>
    have hin : w.rr.pc.inTurn = true := by rw [hpc']; rfl
    have hsome : w.rr.currProcess ≠ none := Option.isSome_iff_ne_none.mp hcur
    obtain ⟨rq, mq, hf⟩ := fetched_eq clk w.rr
    rw [hf] at hs
    cases hs with
    | keep _ hm _ =>
      exact hinside hin rfl rfl (vacancy_go hm.cur rfl rfl hin rfl (Or.inl rfl)) hswitch
    | block _ _ _ hm _ _ =>
      exact hinside hin rfl rfl (vacancy_go hm.cur rfl rfl hin rfl (Or.inl rfl)) hswitch
    | switch hp hx _ hf hm hrq =>
      have hnow : clk .reqSwitchAgain = w.rr.now :=
        (hlock.inTurn hin (by rw [hpc']; simp)).1 .reqSwitchAgain
      have hcsu : clk .reqSwitchAgain + 1 = w.rr.now + 1 := by rw [hnow]
      exact hinside hin rfl rfl
        (vacancy_free rfl hsome rfl rfl hcsu (hd.inside hsome hin).1) hcsu.le
  | firstScan hpc' hu =>
    obtain ⟨m, u, b, n, hm, -, rfl⟩ := hu
    have hin : w.rr.pc.inTurn = true := by rw [hpc']; rfl
    exact hinside hin rfl rfl (vacancy_go hm.cur rfl rfl hin rfl (Or.inl rfl)) hswitch
  | finish hpc' _ _ | unfinished hpc' _ =>
    have hin : w.rr.pc.inTurn = true := by rw [hpc']; rfl
    exact hinside hin rfl rfl (vacancy_go rfl rfl rfl hin rfl (Or.inl rfl)) hswitch
  | reap hpc' hcur hx hwait hrel =>
    have hin : w.rr.pc.inTurn = true := by rw [hpc']; rfl
    have hsome : w.rr.currProcess ≠ none := by rw [hcur]; simp
    have hnow : clk .finish = w.rr.now := (hlock.inTurn hin (by rw [hpc']; simp)).1 .finish
    have hcsu : clk .finish + 1 = w.rr.now + 1 := by rw [hnow]
    exact hinside hin rfl rfl
      (vacancy_free hrel.cur hsome rfl rfl hcsu (hd.inside hsome hin).1) hcsu.le
  | shut hpc' hset hlt =>
    -- nobody is running while a context switch is going on
    have hin : w.rr.pc.inTurn = true := by rw [hpc']; rfl
    have hnone : w.rr.currProcess = none := by
      by_contra hne
      have := (hd.inside hne hin).2
      omega
    have hv := vacancy_outside (s := { w.rr with pc := .last }) hnone rfl
    refine hinside hin rfl rfl (hv.trans_le ?_) hswitch
    rw [vacancy_inside hnone hin]
    show w.rr.now ≤ _
    omega
  | listen hpc' hopen hrec hnew =>
    have hin : w.rr.pc.inTurn = true := by rw [hpc']; rfl
    have hcsu : (-1 : ℤ) ≤ w.rr.now := by omega
    exact hinside hin rfl rfl (vacancy_go rfl rfl rfl hin rfl (Or.inr hcsu)) (by
      show (-1 : ℤ) ≤ _
      omega)
  | skip hpc' hopen hnot =>
    have hin : w.rr.pc.inTurn = true := by rw [hpc']; rfl
    have hcsu : (-1 : ℤ) ≤ w.rr.now := by omega
    exact hinside hin rfl rfl (vacancy_go rfl rfl rfl hin rfl (Or.inr hcsu)) (by
      show (-1 : ℤ) ≤ _
      omega)
  | arrive hpc' _ _ | drop hpc' _ _ _ _ =>
    have hin : w.rr.pc.inTurn = true := by rw [hpc']; rfl
    exact hinside hin rfl rfl (vacancy_go rfl rfl rfl hin hin (Or.inl rfl)) hswitch
  | sync hpc' _ _ _ | last hpc' _ _ =>
    have hin : w.rr.pc.inTurn = true := by rw [hpc']; rfl
    exact hinside hin rfl rfl (vacancy_go rfl rfl rfl hin rfl (Or.inl rfl)) hswitch
  | lastScan hpc' hu =>
    obtain ⟨m, u, b, n, hm, -, rfl⟩ := hu
    have hpos := (hcl.now (by rw [hpc']; simp) (by rw [hpc']; simp)).2
    have hbegun : w.rr.lastTick ≠ -1 := by omega
    have hv : ({ w.rr with
        toMem := m, readyQueue := w.rr.readyQueue ++ u, blockQueue := b, pc := .top } :
          RRState).vacancy = w.rr.vacancy :=
      vacancy_stay hm.cur rfl rfl (by rw [hpc']; rfl) rfl
    exact h.later (by omega) hv.le le_rfl hnow0 hswitch (fun hc => absurd hc hbegun) he ha hr hn

/-- A step of the scheduler. -/
theorem Awaited.sched {clk : Clk} {s : RRState} {t : ℤ} (hq : 1 ≤ P.quantum)
    (hclk : Readings clk w.clock t) (hlock : Lockstep w (.sched clk t)) (htick : Ticking w)
    (hcl : Clocked w.rr) (hn : w.rr.readyQueue.Nodup) (hn' : s.readyQueue.Nodup)
    (ht : Turn (fun _ => True) P clk w.rr s) (hl : Lined w.rr en)
    (hd : Due P.quantum w.rr en since) (h : Awaited P.quantum w.rr en ah)
    (he : Entries w.rr s en en') (ha : Places w.rr s ah ah') : Awaited P.quantum s en' ah' := by
  by_cases hpc : w.rr.pc = .algo
  · have hin : w.rr.pc.inTurn = true := by rw [hpc]; rfl
    rw [Lockstep, hpc] at hlock
    obtain ⟨rfl, htime⟩ := hlock
    have hopen := hcl.gate (Or.inr hpc)
    have hnow0 := htick.tick
    obtain ⟨hg, hnow, hlast, hpc', hcsu⟩ := ht.gives hpc rfl htime hnow0 hopen hn
    have hlast' := (htick.turn hin).2
    exact h.gives hg (by omega) hin (by rw [hpc']; rfl) hnow hnow0 (by omega) (by omega) (by omega)
      hl rfl (fun hc => (hd.inside hc hin).1) he ha (ht.requeued hn' fun _ => rfl) hn
  · exact Awaited.other hq ht hpc hclk hlock htick hcl hd h he ha
      (ht.requeued hn' fun hc => absurd hc hpc) hn

/-- A state of the system, and what has been recorded of it: for each process, besides when it
has entered the ready queue last, who was in front of it then. -/
structure Waits extends Slices where
  ahead : Ptr → List Ptr

/-- Who was not in the ready queue before finds some in front of him. -/
def queueing (w w' : World) (ah : Ptr → List Ptr) : Ptr → List Ptr := fun p =>
  if p ∈ w'.rr.readyQueue ∧ p ∉ w.rr.readyQueue then inFront p w'.rr.readyQueue else ah p

/-- The runs in lockstep, recorded. -/
def waits (P : Params) : TransitionSystem Waits where
  init a := (slices P).init a.toSlices
  step a b := (slices P).step a.toSlices b.toSlices ∧ b.ahead = queueing a.world b.world a.ahead

theorem waits_reachable {a : Waits} (h : (waits P).Reachable a) :
    (slices P).Reachable a.toSlices := by
  refine TransitionSystem.Reachable.map (T := slices P) (f := Waits.toSlices) (fun _ ha => ha) ?_ h
  rintro a b - ⟨hst, -⟩
  exact Or.inl hst

theorem queueing_same (h : w'.rr.readyQueue = w.rr.readyQueue) : queueing w w' ah = ah := by
  funext p
  rw [queueing, h, if_neg fun hc => hc.2 hc.1]

theorem waits_awaited (hq : 1 ≤ P.quantum) {a : Waits} (h : (waits P).Reachable a) :
    Awaited P.quantum a.world.rr a.entered a.ahead := by
  induction h with
  | @init a ha =>
    obtain ⟨l, t, -, -, -, hw⟩ := ha
    have hw : a.world = start l t := hw
    rw [hw]
    refine ⟨?_, fun _ => ⟨rfl, ?_⟩, ?_, List.forall_mem_nil _, List.forall_mem_nil _,
      List.forall_mem_nil _⟩
    · show (-1 : ℤ) ≤ 0 + 1
      decide
    · show (-1 : ℤ) ≤ 0
      decide
    · rw [vacancy_outside rfl rfl]
      show (0 : ℤ) ≤ 0 + P.quantum + 1
      omega
  | @step a b ha hst ih =>
    obtain ⟨⟨e, hst, hlock, hen, hsince⟩, hah⟩ := hst
    have hslices := waits_reachable ha
    obtain ⟨hl, hd⟩ := slices_due hq hslices
    have hlocked := slices_reachable hslices
    have hw : (system P).Reachable a.world := reachable_of_if hlocked
    have hi := reachable_inv hw
    have hi' := reachable_inv (hw.step ⟨e, hst⟩)
    have htick := reachable_ticking (fun _ _ hc => hc) hlocked
    have hen' : Entries a.world.rr b.world.rr a.entered b.entered := fun p => by
      rw [hen]
      rfl
    have hah' : Places a.world.rr b.world.rr a.ahead b.ahead := fun p => by
      rw [hah]
      rfl
    generalize b.world = w' at hst hi' hsince hen hah hen' hah'
    cases hst with
    | @sched _ clk s t hclk hs =>
      exact Awaited.sched hq hclk hlock htick (reachable_clocked hw) hi.held.toCustody.ready_nodup
        hi'.held.toCustody.ready_nodup (hi.turn hs) hl hd ih hen' hah'
    | @child _ p s hs =>
      obtain ⟨-, -, hm⟩ := childStep_held hs hi.held
      have hkept : s.readyQueue = a.world.rr.readyQueue ∧ s.now = a.world.rr.now ∧
          s.lastTick = a.world.rr.lastTick ∧
          s.nextPreemtionTime = a.world.rr.nextPreemtionTime ∧
          s.contextSwitchUntil = a.world.rr.contextSwitchUntil ∧ s.pc = a.world.rr.pc := by
        obtain ⟨c, -, -, -, ⟨-, rfl⟩ | ⟨-, -, rfl⟩⟩ := childStep_cases hs <;>
          exact ⟨rfl, rfl, rfl, rfl, rfl, rfl⟩
      obtain ⟨hrq, hnow, hlast, hnext, hcsu, hpc⟩ := hkept
      exact ih.of_eq hm hrq hnow hlast hnext hcsu hpc (hen.trans (entering_same hrq))
        (hah.trans (queueing_same hrq))
    | _ =>
      exact ih.of_eq rfl rfl rfl rfl rfl rfl rfl (hen.trans (entering_same rfl))
        (hah.trans (queueing_same rfl))

/-- While somebody waits, the clock is at most one tick behind the next dispatch. -/
theorem clock_le_vacancy {since : ℤ} {a : Waits} (hd : Due P.quantum a.world.rr a.entered since)
    (h : (waits P).Reachable a) (ha : Awaited P.quantum a.world.rr a.entered a.ahead)
    (hne : a.world.rr.readyQueue ≠ []) : a.world.clock ≤ a.world.rr.vacancy + 1 := by
  have hlocked := slices_reachable (waits_reachable h)
  have htick := reachable_ticking (fun _ _ hc => hc) hlocked
  have hclosed := reachable_closed (reachable_of_if hlocked)
  by_cases hnone : a.world.rr.currProcess = none
  · by_cases hin : a.world.rr.pc.inTurn = true
    · rw [vacancy_inside hnone hin, (htick.turn hin).1]
      omega
    · rw [vacancy_outside hnone (Bool.eq_false_iff.mpr hin)]
      cases hpc : a.world.rr.pc <;> rw [hpc] at hin
      case top =>
        rcases htick.top hpc with ⟨hfirst, -⟩ | ⟨-, hc⟩
        · exact absurd (ha.begun hfirst).1 hne
        · exact hc
      case last => rcases (htick.last hpc).2 with hc | ⟨hc, -⟩ <;> omega
      case exited => exact absurd (hclosed hpc).1 hne
      all_goals exact absurd rfl hin
  · rw [vacancy_running hnone]
    by_cases hin : a.world.rr.pc.inTurn = true
    · have := (htick.turn hin).1
      have := (hd.inside hnone hin).1
      omega
    · have hout := hd.outside hnone
      cases hpc : a.world.rr.pc <;> rw [hpc] at hin hout
      case top =>
        rcases htick.top hpc with ⟨-, hc⟩ | ⟨-, hc⟩
        · exact absurd hc hnone
        · have := (hout (Or.inr rfl)).1
          omega
      case last =>
        have := (hout (Or.inl rfl)).1
        rcases (htick.last hpc).2 with hc | ⟨hc, -⟩ <;> omega
      case exited => exact absurd (hclosed hpc).2.2 hnone
      all_goals exact absurd rfl hin

/-- **Bounded waiting.** A process that waits in the ready queue is not overtaken: those in front
of it were in front of it when it entered the queue. And it does not wait for longer than a
quantum and a context switch for each of them and for the process that was running then. -/
theorem waits_bounded (hq : 1 ≤ P.quantum) {a : Waits} (h : (waits P).Reachable a) {p : Ptr}
    (hp : p ∈ a.world.rr.readyQueue) :
    (inFront p a.world.rr.readyQueue).Sublist (a.ahead p) ∧
      a.world.clock ≤ a.entered p + ((a.ahead p).length + 1) * (P.quantum + 1) + 1 := by
  have ha := waits_awaited hq h
  refine ⟨ha.place p hp, ?_⟩
  have hd := (slices_due hq (waits_reachable h)).2
  have hclock := clock_le_vacancy hd h ha (List.ne_nil_of_mem hp)
  have htime := ha.inTime p hp
  have hfront : (0 : ℤ) ≤ (inFront p a.world.rr.readyQueue).length * (P.quantum + 1) :=
    mul_nonneg (Int.natCast_nonneg _) (by omega)
  rw [turnOf, latest] at htime
  omega

theorem exists_waits (h : (systemIf P (fun _ => True) Lockstep).Reachable w) :
    ∃ a, (waits P).Reachable a ∧ a.world = w := by
  induction h with
  | @init w h => exact ⟨⟨⟨w, fun _ => 0, 0⟩, fun _ => []⟩, .init h, rfl⟩
  | @step w w' _ hst ih =>
    obtain ⟨e, hst, hlock⟩ := hst
    obtain ⟨a, ha, rfl⟩ := ih
    exact ⟨⟨⟨w', entering a.world w' a.entered, dispatching a.world w' a.since⟩,
      queueing a.world w' a.ahead⟩, ha.step ⟨⟨e, hst, hlock, rfl, rfl⟩, rfl⟩, rfl⟩

/-- In the run of two processes the second one waits. -/
theorem waits_bounded_waiting :
    ∃ a : Waits, a.world.rr.readyQueue = [1] ∧
      (inFront 1 a.world.rr.readyQueue).Sublist (a.ahead 1) ∧
      a.world.clock ≤ a.entered 1 + ((a.ahead 1).length + 1) * (2 + 1) + 1 := by
  have hrun : (playIf (quietParams 2) lockstepCheck (start shortAndLong 1) waitingRun).map
      (fun w => w.rr.readyQueue) = some [1] := by
    decide +kernel
  obtain ⟨w, hw, hready⟩ := Option.map_eq_some_iff.mp hrun
  have hstart : (systemIf (quietParams 2) (fun _ => True) Lockstep).Reachable
      (start shortAndLong 1) := by
    refine .init ⟨shortAndLong, 1, ⟨?_, ?_, ?_⟩, fun _ _ => trivial, by decide, rfl⟩ <;> decide
  have hreach := playIf_reachable (fun w e _ hc => lockstep_of_check hc) hstart hw
  obtain ⟨a, ha, rfl⟩ := exists_waits hreach
  have hmem : 1 ∈ a.world.rr.readyQueue := by rw [hready]; exact List.mem_singleton.mpr rfl
  exact ⟨a, hready, waits_bounded (P := quietParams 2) (by decide) ha hmem⟩

end World

end CpuScheduler
