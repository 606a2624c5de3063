import CpuScheduler.RR.Accounting
import CpuScheduler.RR.Lockstep

/-!
# How long a process can go on

The law of the time slices. When the ready queue is not empty, a running process is
preempted a quantum after its dispatch, or a quantum after the first process of the queue
has entered it, if that was later. The rule by which `RR_algo` extends a quantum does
not go beyond that: it extends it when nobody is ready, or when the first in the queue has
arrived in this very tick, and the queue is in the order in which it was entered
(`CpuScheduler.RRState.Lined`), so that in both cases everybody who waits now or later has
entered no earlier than the quantum was extended (`CpuScheduler.RRState.Due`).
-/

namespace CpuScheduler

namespace RRState

open Fallible Mem

variable {K : Mem → Prop} {P : Params} {clk : Clk} {s s' : RRState} {l c : List Ptr}
  {en en' : Ptr → ℤ} {since since' : ℤ} {p : Ptr}

/-! ### The ready queue -/

theorem Custody.ready_nodup (h : s.Custody l c) : s.readyQueue.Nodup := by
  have hn : (s.currentPCBs : Multiset Ptr).Nodup := Multiset.coe_nodup.mpr h.wf.nodup
  rw [h.places] at hn
  exact Multiset.coe_nodup.mp (Multiset.nodup_of_le
    (le_trans (Multiset.le_add_left _ _) (Multiset.le_add_right _ _)) hn)

/-- The queue `r'` has been made from the queue `r`: some have left it, and others have been
put at its rear. -/
def Requeued (r r' : List Ptr) : Prop :=
  ∃ l u, l.Sublist r ∧ r' = l ++ u ∧ ∀ p ∈ u, p ∉ r

theorem Requeued.refl (r : List Ptr) : Requeued r r :=
  ⟨r, [], List.Sublist.refl r, (List.append_nil r).symm, List.forall_mem_nil _⟩

theorem Requeued.of_sublist {r r' : List Ptr} (h : r'.Sublist r) : Requeued r r' :=
  ⟨r', [], h, (List.append_nil r').symm, List.forall_mem_nil _⟩

theorem Requeued.of_nodup {r u : List Ptr} (h : (r ++ u).Nodup) : Requeued r (r ++ u) :=
  ⟨r, u, List.Sublist.refl r, rfl, fun _ hp hr => (List.nodup_append.mp h).2.2 _ hr _ hp rfl⟩

/-- The front of a queue leaves it. -/
theorem Requeued.tail {r u r' : List Ptr} {p : Ptr} (h : (r ++ u).Nodup) (hr : r ≠ [])
    (he : r ++ u = p :: r') : p ∈ r ∧ Requeued r r' := by
  cases r with
  | nil => exact absurd rfl hr
  | cons a r =>
    obtain ⟨rfl, rfl⟩ := List.cons.inj he
    exact ⟨List.mem_cons_self, r, u, List.sublist_cons_self a r, rfl, fun q hq hr =>
      (List.nodup_append.mp h).2.2 _ hr _ hq rfl⟩

/-- A quantum that is not extended when it is over: somebody is ready. -/
theorem Preempting.ready (h : s.Preempting clk) (hdue : clk .extendDue = clk .preemptDue) :
    s.readyQueue ≠ [] := by
  intro hnil
  refine h.2.2.2 ⟨?_, hdue ▸ h.2.2.1⟩
  rw [mayExtend, hnil, Queue.isEmpty_nil, if_pos rfl]

/-- In a preemption, the process that is dispatched was in the queue before. -/
theorem preempt_requeued {x : PCB} {s₁ s₂ : RRState} {t : ℤ} (hready : s.readyQueue ≠ [])
    (hu : Unblocks (s.stopped clk p x) s₁) (hn : s₁.readyQueue.Nodup)
    (hd : Dispatches P clk { s₁ with checked := true, nextPreemtionTime := t } s₂) :
    (∃ r ∈ s.readyQueue, s₂.currProcess = some r) ∧ Requeued s.readyQueue s₂.readyQueue := by
  obtain ⟨m, u, b, n, hm, -, rfl⟩ := hu
  have hn : (s.readyQueue ++ [p] ++ u).Nodup := hn
  rw [List.append_assoc] at hn
  cases hd with
  | @intro r y m' rest line hq _ _ hm' _ =>
    have hq : s.readyQueue ++ [p] ++ u = r :: rest := hq
    rw [List.append_assoc] at hq
    obtain ⟨hr, hre⟩ := Requeued.tail hn hready hq
    exact ⟨⟨r, hr, hm'.cur⟩, hre⟩

/-- **What a turn does to the ready queue.** -/
theorem Turn.requeued (ht : Turn K P clk s s') (hnodup : s'.readyQueue.Nodup)
    (hdue : s.pc = .algo → clk .extendDue = clk .preemptDue) :
    Requeued s.readyQueue s'.readyQueue := by
  cases ht with
  | @serve s₁ hpc hcur hs =>
    obtain ⟨rq, mq, hf⟩ := fetched_eq clk s
    rw [hf] at hs
    cases hs with
    | keep hd hm hrq => exact Requeued.refl _
    | block hx hd hf hm hrq hr => exact Requeued.of_sublist hr
    | switch hp hx hd hf hm hrq => exact Requeued.refl _
  | firstScan hpc hu | lastScan hpc hu =>
    obtain ⟨m, u, b, n, hm, -, rfl⟩ := hu
    exact Requeued.of_nodup hnodup
  | arrive hpc hrcv hd => exact Requeued.of_nodup hnodup
  | @algo s₁ m print cl hpc hd hm _ =>
    have h₁ : Requeued s.readyQueue s₁.readyQueue := by
      rcases hd with ⟨hpos, hd⟩ | ⟨-, rfl⟩
      · cases hd with
        | stay hrun hidle => exact Requeued.refl _
        | extend hp hext => exact Requeued.refl _
        | @preempt p x s₁ _ hp hx hpre hwait hu hheld hbefore hd =>
          have hready : s.readyQueue ≠ [] := Preempting.ready
            ⟨by rw [hp]; exact nofun, hpos, hpre⟩ (hdue hpc)
          exact (preempt_requeued hready hu hheld.toCustody.ready_nodup hd).2
        | dispatch hp hd =>
          cases hd with
          | intro hq _ _ _ _ =>
            rw [hq]
            exact Requeued.of_sublist (List.sublist_cons_self _ _)
      · exact Requeued.refl _
    rw [permit]
    split_ifs <;> exact h₁
  | _ => exact Requeued.refl _

/-- A message is received in the receiving phase only. -/
theorem Turn.receiving (ht : Turn K P clk s s') {d : ProcessData}
    (hrcv : MsgQueue.rcv ProcessData.mtype (-5) s.msgq = some (d, s'.msgq)) :
    s.pc = .receive ∧ s'.now = s.now := by
  have hno : s'.msgq = s.msgq → s.pc = .receive ∧ s'.now = s.now := by
    intro he
    have hlen := (MsgQueue.perm_of_rcv hrcv).length_eq
    rw [he, List.length_cons] at hlen
    omega
  cases ht with
  | arrive hpc _ _ | sync hpc _ _ _ | last hpc _ _ | drop hpc _ _ _ _ => exact ⟨hpc, rfl⟩
  | serve hpc hcur hs =>
    obtain ⟨rq, mq, hf⟩ := fetched_eq clk s
    rw [hf] at hs
    cases hs <;> exact hno rfl
  | firstScan hpc hu | lastScan hpc hu =>
    obtain ⟨m, u, b, n, hm, -, rfl⟩ := hu
    exact hno rfl
  | @algo s₁ m print cl hpc hd hm _ =>
    refine hno ?_
    have h₁ : s₁.msgq = s.msgq := by
      rcases hd with ⟨-, hd⟩ | ⟨-, rfl⟩
      · obtain ⟨m, r, b, n, t, u, k, rt, log, ch, c, rfl⟩ := hd.frame
        rfl
      · rfl
    rw [permit]
    split_ifs <;> exact h₁
  | _ => exact hno rfl

/-- The tick changes when a turn begins. -/
theorem Turn.now (ht : Turn K P clk s s') : s'.now = s.now ∨ s'.now = clk .now := by
  cases ht with
  | tick hpc hnew => exact Or.inr rfl
  | serve hpc hcur hs =>
    obtain ⟨rq, mq, hf⟩ := fetched_eq clk s
    rw [hf] at hs
    cases hs <;> exact Or.inl rfl
  | firstScan hpc hu | lastScan hpc hu =>
    obtain ⟨m, u, b, n, hm, -, rfl⟩ := hu
    exact Or.inl rfl
  | @algo s₁ m print cl hpc hd hm _ =>
    refine Or.inl ?_
    have h₁ : s₁.now = s.now := by
      rcases hd with ⟨-, hd⟩ | ⟨-, rfl⟩
      · obtain ⟨m, r, b, n, t, u, k, rt, log, ch, c, rfl⟩ := hd.frame
        rfl
      · rfl
    rw [permit]
    split_ifs <;> exact h₁
  | _ => exact Or.inl rfl

/-- **The ready queue is in the order in which it was entered**, and nobody has entered it
before his arrival. -/
structure Lined (s : RRState) (en : Ptr → ℤ) : Prop where
  arrived : ForallHeap (fun _ x => x.arrival ≤ s.now) s.toMem
  entered : ∀ p ∈ s.readyQueue, en p ≤ s.now
  after : ForallHeap (fun p x => p ∈ s.readyQueue → x.arrival ≤ en p) s.toMem
  sorted : s.readyQueue.Pairwise fun p q => en p ≤ en q

/-- The entries of a turn are those of its tick. -/
def Entries (s s' : RRState) (en en' : Ptr → ℤ) : Prop :=
  ∀ p, en' p = if p ∈ s'.readyQueue ∧ p ∉ s.readyQueue then s'.now else en p

theorem Entries.old (h : Entries s s' en en') (hp : p ∈ s.readyQueue) : en' p = en p := by
  rw [h p, if_neg fun hc => hc.2 hp]

theorem Turn.lined (ht : Turn K P clk s s') (h : Lined s en) (he : Entries s s' en en')
    (hr : Requeued s.readyQueue s'.readyQueue) (hnow : s.now ≤ s'.now)
    (hfresh : s.brk ∉ s.readyQueue)
    (hnew : ∀ d, MsgQueue.rcv ProcessData.mtype (-5) s.msgq = some (d, s'.msgq) →
      d.mtype = 1 → d.arrival ≤ s'.now) : Lined s' en' := by
  have hdisp : ∀ (p : Ptr) (x : PCB), (x.dispatched clk p).arrival = x.arrival := fun p x =>
    (dispatched_eq clk p x).2.1
  have harr : ForallHeap (fun _ x => x.arrival ≤ s'.now) s'.toMem := by
    refine ht.forall_heap (fun p x y hc hx => ?_) (fun _ _ _ hx => hx)
      (fun _ p x hx => (hdisp p x).le.trans hx) hnew fun p x hx => (h.arrived p x hx).trans hnow
    rw [(core_eq hc).2.1]
    exact hx
  have hold : ForallHeap (fun p x => p ∈ s.readyQueue → x.arrival ≤ en p) s'.toMem := by
    refine ht.forall_heap (fun p x y hc hx hp => ?_) (fun _ _ _ hx => hx)
      (fun _ p x hx hp => (hdisp p x).le.trans (hx hp)) (fun _ _ _ hp => absurd hp hfresh) h.after
    rw [(core_eq hc).2.1]
    exact hx hp
  obtain ⟨l, u, hl, hr, hu⟩ := hr
  have hin : ∀ p ∈ u, en' p = s'.now := fun p hp => by
    rw [he p, if_pos ⟨hr ▸ List.mem_append_right l hp, hu p hp⟩]
  refine ⟨harr, fun p hp => ?_, fun p x hx hp => ?_, ?_⟩
  · rcases List.mem_append.mp (hr ▸ hp) with hp | hp
    · rw [he.old (hl.subset hp)]
      exact (h.entered p (hl.subset hp)).trans hnow
    · rw [hin p hp]
  · rcases List.mem_append.mp (hr ▸ hp) with hp | hp
    · rw [he.old (hl.subset hp)]
      exact hold p x hx (hl.subset hp)
    · rw [hin p hp]
      exact harr p x hx
  · rw [hr, List.pairwise_append]
    refine ⟨(h.sorted.sublist hl).imp_of_mem fun hp hq hle => ?_,
      List.pairwise_of_forall_mem_list fun p hp q hq => ?_, fun p hp q hq => ?_⟩
    · rwa [he.old (hl.subset hp), he.old (hl.subset hq)]
    · rw [hin p hp, hin q hq]
    · rw [he.old (hl.subset hp), hin q hq]
      exact (h.entered p (hl.subset hp)).trans hnow

/-! ### The deadline -/

/-- **The next preemption is near.** `since` is the time of the dispatch. -/
structure Due (q : ℤ) (s : RRState) (en : Ptr → ℤ) (since : ℤ) : Prop where
  /-- For whoever enters the queue now, and for whoever is in it. -/
  now : s.currProcess ≠ none → s.nextPreemtionTime ≤ max s.now since + q
  queue : s.currProcess ≠ none → ∀ p ∈ s.readyQueue, s.nextPreemtionTime ≤ max (en p) since + q
  /-- It has not been missed, and no context switch is going on. -/
  inside : s.currProcess ≠ none → s.pc.inTurn = true →
    s.now ≤ s.nextPreemtionTime ∧ s.contextSwitchUntil ≤ s.now
  outside : s.currProcess ≠ none → s.pc = .last ∨ s.pc = .top →
    s.now + 1 ≤ s.nextPreemtionTime ∧ s.contextSwitchUntil ≤ s.now + 1

/-- The deadline stays, and others enter the queue. -/
theorem Due.keep {q : ℤ} (h : Due q s en since) (he : Entries s s' en en')
    (hr : Requeued s.readyQueue s'.readyQueue) (hnow : s.now ≤ s'.now)
    (hcur : s'.currProcess ≠ none → s.currProcess ≠ none)
    (hnext : s'.currProcess ≠ none → s'.nextPreemtionTime = s.nextPreemtionTime)
    (hin : s'.currProcess ≠ none → s'.pc.inTurn = true →
      s'.now ≤ s.nextPreemtionTime ∧ s'.contextSwitchUntil ≤ s'.now)
    (hout : s'.currProcess ≠ none → s'.pc = .last ∨ s'.pc = .top →
      s'.now + 1 ≤ s.nextPreemtionTime ∧ s'.contextSwitchUntil ≤ s'.now + 1) :
    Due q s' en' since where
  now hc := by
    have := h.now (hcur hc)
    rw [hnext hc]
    omega
  queue hc p hp := by
    rw [hnext hc]
    obtain ⟨l, u, hl, hr, hu⟩ := hr
    rcases List.mem_append.mp (hr ▸ hp) with hm | hm
    · rw [he.old (hl.subset hm)]
      exact h.queue (hcur hc) p (hl.subset hm)
    · -- who enters the queue now has entered it late enough
      have hen : en' p = s'.now := by rw [he p, if_pos ⟨hp, hu p hm⟩]
      have := h.now (hcur hc)
      rw [hen]
      omega
  inside hc hpc := by
    rw [hnext hc]
    exact hin hc hpc
  outside hc hpc := by
    rw [hnext hc]
    exact hout hc hpc

/-- A new deadline, for a process that has just been dispatched or whose quantum has just been
extended. -/
theorem Due.reset {q t : ℤ} (hq : 1 ≤ q) (hnext : s'.nextPreemtionTime = t + q)
    (ht : t ≤ since ∨ (t ≤ s'.now ∧ ∀ p ∈ s'.readyQueue, t ≤ en' p)) (hnow : s'.now ≤ t)
    (hcsu : s'.contextSwitchUntil ≤ s'.now + 1) (hpc : s'.pc.inTurn = false) :
    Due q s' en' since where
  now _ := by omega
  queue _ p hp := by
    rcases ht with ht | ⟨-, ht⟩
    · omega
    · have := ht p hp
      omega
  inside _ hin := nomatch hpc.symm.trans hin
  outside _ _ := ⟨by omega, hcsu⟩

theorem Due.idle {q : ℤ} (h : s.currProcess = none) : Due q s en since :=
  ⟨fun hc => absurd h hc, fun hc => absurd h hc, fun hc => absurd h hc, fun hc => absurd h hc⟩

/-- The other parties do not touch what the law is about. -/
theorem Lined.of_eq (h : Lined s en) (hm : s'.toMem = s.toMem)
    (hrq : s'.readyQueue = s.readyQueue) (hnow : s'.now = s.now) (hen : en' = en) :
    Lined s' en' := by
  subst hen
  refine ⟨?_, ?_, ?_, hrq ▸ h.sorted⟩
  · rw [hm, hnow]
    exact h.arrived
  · rw [hrq, hnow]
    exact h.entered
  · rw [hm, hrq]
    exact h.after

theorem Due.of_eq {q : ℤ} (h : Due q s en since) (hm : s'.toMem = s.toMem)
    (hrq : s'.readyQueue = s.readyQueue) (hnow : s'.now = s.now)
    (hnext : s'.nextPreemtionTime = s.nextPreemtionTime)
    (hcsu : s'.contextSwitchUntil = s.contextSwitchUntil) (hpc : s'.pc = s.pc) (hen : en' = en) :
    Due q s' en' since := by
  have hcur : s'.currProcess = s.currProcess := congrArg Mem.currProcess hm
  subst hen
  refine ⟨?_, ?_, ?_, ?_⟩ <;> rw [hcur]
  · rw [hnow, hnext]
    exact h.now
  · rw [hrq, hnext]
    exact h.queue
  · rw [hnow, hnext, hcsu, hpc]
    exact h.inside
  · rw [hnow, hnext, hcsu, hpc]
    exact h.outside

theorem permit_eq (s : RRState) : ∃ n, s.permit = { s with sem := n } := by
  rw [permit]
  split_ifs
  · exact ⟨1, rfl⟩
  · exact ⟨s.sem, rfl⟩

/-- **Why a quantum is extended**: whoever is in the queue has entered it in this tick. -/
theorem Lined.extend (h : Lined s en) (hext : s.mayExtend clk = .ok true)
    (hnow : clk .frontArrival = s.now) : ∀ p ∈ s.readyQueue, s.now ≤ en p := by
  intro p hp
  rw [mayExtend] at hext
  cases hq : s.readyQueue with
  | nil => exact absurd (hq ▸ hp) (by simp)
  | cons f rest =>
    rw [hq, Queue.isEmpty_cons] at hext
    simp only [Bool.false_eq_true, if_false, Queue.peek, ok_bind] at hext
    obtain ⟨x, hx, hext⟩ := bind_eq_ok.mp hext
    have harr : x.arrival = s.now := by
      rw [← hnow]
      exact of_decide_eq_true (Except.ok.inj hext)
    -- the first has entered after its arrival, and the others after the first
    have hf := h.after f x (pcb_eq_ok.mp hx) (hq ▸ List.mem_cons_self)
    have hs := h.sorted
    rw [hq] at hs hp
    rcases List.mem_cons.mp hp with rfl | hp
    · omega
    · have := (List.pairwise_cons.mp hs).1 p hp
      omega

end RRState

namespace World

open RRState

variable {P : Params} {adm : ProcessData → Prop} {C : World → Event → Prop} {w w' : World}
  {e : Event} {en en' : Ptr → ℤ} {since : ℤ}

/-! ### The runs -/

/-- **`RR_algo` sets the deadline.** -/
theorem Due.algo {clk : Clk} {s : RRState} {t : ℤ} (hq : 1 ≤ P.quantum)
    (ht : Turn (fun _ => True) P clk w.rr s) (hpc : w.rr.pc = .algo)
    (hlock : Lockstep w (.sched clk t)) (htick : Ticking w) (hcl : Clocked w.rr)
    (hc : w.rr.Custody [] w.rr.currProcess.toList) (hl : Lined w.rr en)
    (h : Due P.quantum w.rr en since) (he : Entries w.rr s en en')
    (hr : Requeued w.rr.readyQueue s.readyQueue) :
    Due P.quantum s en' (if s.currProcess = w.rr.currProcess then since else t) := by
  rw [Lockstep, hpc] at hlock
  obtain ⟨hclk, htime⟩ := hlock
  have hread : ∀ x, clk x = if afterWait x then t else w.rr.now := fun x => by rw [hclk]; rfl
  have hopen := hcl.gate (Or.inr hpc)
  have hnow0 := htick.tick
  cases ht with
  | @algo s₁ m print cl _ hd hm _ =>
    obtain ⟨n, hperm⟩ := permit_eq { s₁ with toMem := m, lastPrint := print, clears := cl }
    rw [hperm] at he hr ⊢
    have hcur : m.currProcess = s₁.currProcess := hm.cur
    rcases hd with ⟨hpos, hd⟩ | ⟨hneg, rfl⟩
    · cases hd with
      | stay hrun hidle =>
        have hsame : m.currProcess = w.rr.currProcess := hcur
        rw [if_pos hsame]
        refine h.keep he hr le_rfl (fun hne => hsame ▸ hne) (fun _ => rfl)
          (fun _ hin => absurd hin (by rintro ⟨⟩)) fun hne _ => ?_
        have hlt := hrun (hsame ▸ hne)
        rw [hread .preemptDue] at hlt
        simp only [afterWait, Bool.false_eq_true, if_false] at hlt
        refine ⟨hlt, ?_⟩
        show w.rr.contextSwitchUntil ≤ w.rr.now + 1
        omega
      | @extend p hp hext =>
        have hsame : m.currProcess = w.rr.currProcess := hcur
        rw [if_pos hsame]
        have hx : clk .extendNext = w.rr.now := hread .extendNext
        have hall := hl.extend hext.1 (hread .frontArrival)
        refine Due.reset (t := w.rr.now) hq ?_ (Or.inr ⟨le_rfl, fun p hp => ?_⟩) le_rfl ?_ rfl
        · show clk .extendNext + P.quantum = _
          rw [hx]
        · have hp : p ∈ w.rr.readyQueue := hp
          rw [he.old hp]
          exact hall p hp
        · show w.rr.contextSwitchUntil ≤ w.rr.now + 1
          omega
      | @preempt p x s₂ _ hp hx hdue hwait hu hheld hbefore hd =>
        have hpre : w.rr.Preempting clk := ⟨by rw [hp]; simp, hpos, hdue⟩
        rw [if_pos hpre] at htime
        have hready : w.rr.readyQueue ≠ [] :=
          hpre.ready ((hread .extendDue).trans (hread .preemptDue).symm)
        obtain ⟨⟨r, hrq, hcur₁⟩, -⟩ := preempt_requeued hready hu hheld.toCustody.ready_nodup hd
        -- another process is dispatched
        have hne : m.currProcess ≠ w.rr.currProcess := by
          rw [hcur, hcur₁, hp]
          intro hrp
          obtain rfl := Option.some.inj hrp
          obtain ⟨y, hy, hR⟩ := hc.running r (by rw [hp]; exact List.mem_singleton.mpr rfl)
          exact absurd (hR.symm.trans ((hc.ready r hrq).eq hy)) (by simp)
        rw [if_neg hne]
        obtain ⟨m', u, b, n, hm', -, rfl⟩ := hu
        have hsw : clk .switchUntil = w.rr.now := hread .switchUntil
        have hnx : clk .nextPreemption = t := hread .nextPreemption
        cases hd with
        | intro hq' _ _ _ _ =>
          refine Due.reset (t := t) hq ?_ (Or.inl le_rfl) ?_ ?_ rfl
          · show clk .nextPreemption + P.quantum = _
            rw [hnx]
          · show w.rr.now ≤ t
            omega
          · show clk .switchUntil + 1 ≤ w.rr.now + 1
            omega
      | @dispatch s₂ hp hd =>
        have hnot : ¬w.rr.Preempting clk := fun hpre => hpre.1 hp
        rw [if_neg hnot] at htime
        have hnx : clk .nextPreemption = t := hread .nextPreemption
        cases hd with
        | @intro r y m' rest line hq' _ _ hm' _ =>
          have hcur₁ : m'.currProcess = some r := hm'.cur
          have hne : m.currProcess ≠ w.rr.currProcess := by
            rw [hcur, hp]
            show m'.currProcess ≠ none
            rw [hcur₁]
            simp
          rw [if_neg hne]
          refine Due.reset (t := t) hq ?_ (Or.inl le_rfl) ?_ ?_ rfl
          · show clk .nextPreemption + P.quantum = _
            rw [hnx]
          · show w.rr.now ≤ t
            omega
          · show w.rr.contextSwitchUntil ≤ w.rr.now + 1
            omega
    · -- nobody is running at tick 0
      refine Due.idle ?_
      show m.currProcess = none
      rw [hcur]
      by_contra hne
      have := htick.running hne
      omega
  | _ hpc' => exact absurd (hpc.symm.trans hpc') (by simp)

/-- **Nothing else does**: the other turns keep it, or nobody is running any more. -/
theorem Due.other {q : ℤ} {clk : Clk} {s : RRState} {t : ℤ}
    (ht : Turn (fun _ => True) P clk w.rr s) (hpc : w.rr.pc ≠ .algo)
    (hlock : Lockstep w (.sched clk t)) (htick : Ticking w)
    (h : Due q w.rr en since) (he : Entries w.rr s en en')
    (hr : Requeued w.rr.readyQueue s.readyQueue) (hnow : w.rr.now ≤ s.now) :
    Due q s en' (if s.currProcess = w.rr.currProcess then since else t) := by
  have hgo : s.currProcess = w.rr.currProcess → s.nextPreemtionTime = w.rr.nextPreemtionTime →
      (s.currProcess ≠ none → s.pc.inTurn = true →
        s.now ≤ w.rr.nextPreemtionTime ∧ s.contextSwitchUntil ≤ s.now) →
      (s.currProcess ≠ none → s.pc = .last ∨ s.pc = .top →
        s.now + 1 ≤ w.rr.nextPreemtionTime ∧ s.contextSwitchUntil ≤ s.now + 1) →
      Due q s en' (if s.currProcess = w.rr.currProcess then since else t) := by
    intro hcur hnext hin hout
    rw [if_pos hcur]
    exact h.keep he hr hnow (fun hc => hcur ▸ hc) (fun _ => hnext) hin hout
  -- a phase that stays inside the turn
  have hinside : w.rr.pc.inTurn = true → s.pc.inTurn = true → s.currProcess = w.rr.currProcess →
      s.nextPreemtionTime = w.rr.nextPreemtionTime → s.now = w.rr.now →
      (s.contextSwitchUntil = w.rr.contextSwitchUntil ∨ s.contextSwitchUntil = -1) →
      Due q s en' (if s.currProcess = w.rr.currProcess then since else t) := by
    intro hin hin' hcur hnext hn hcsu
    refine hgo hcur hnext (fun hc _ => ?_) fun _ hpc' => ?_
    · have hd := h.inside (hcur ▸ hc) hin
      have := htick.tick
      omega
    · rcases hpc' with hpc' | hpc' <;> exact absurd (hpc' ▸ hin') (by rintro ⟨⟩)
  cases ht with
  | algo hpc' => exact absurd hpc' hpc
  | exit hpc' _ _ _ hcur => exact Due.idle hcur
  | spin hpc' =>
    exact hgo rfl rfl (fun hc hin => h.inside hc hin) fun hc hout => h.outside hc hout
  | tick hpc' hnew =>
    rw [Lockstep, hpc'] at hlock
    refine hgo rfl rfl (fun hc _ => ?_) fun _ hpc'' => absurd hpc'' (by simp)
    obtain ⟨h₁, h₂⟩ := h.outside hc (Or.inr hpc')
    have hn := htick.tick
    have hnext : clk .now = w.rr.now + 1 := by
      rcases htick.top hpc' with ⟨-, hnone⟩ | ⟨hl, -⟩
      · exact absurd hnone hc
      · rcases hlock with ⟨hsame, -⟩ | ⟨hnext, -⟩
        · exact absurd hsame hnew
        · omega
    show clk .now ≤ _ ∧ _ ≤ clk .now
    rw [hnext]
    exact ⟨h₁, h₂⟩
  | idle hpc' hcur => exact Due.idle hcur
  | @serve s₁ hpc' hcur hs =>
    obtain ⟨rq, mq, hf⟩ := fetched_eq clk w.rr
    rw [hf] at hs
    cases hs with
    | keep hd hm hrq => exact hinside (by rw [hpc']; rfl) rfl hm.cur rfl rfl (Or.inl rfl)
    | block hx hd hf hm hrq => exact hinside (by rw [hpc']; rfl) rfl hm.cur rfl rfl (Or.inl rfl)
    | switch hp hx hd hf hm hrq => exact Due.idle rfl
  | firstScan hpc' hu =>
    obtain ⟨m, u, b, n, hm, -, rfl⟩ := hu
    exact hinside (by rw [hpc']; rfl) rfl hm.cur rfl rfl (Or.inl rfl)
  | finish hpc' hcur hsig => exact hinside (by rw [hpc']; rfl) rfl rfl rfl rfl (Or.inl rfl)
  | unfinished hpc' hnot => exact hinside (by rw [hpc']; rfl) rfl rfl rfl rfl (Or.inl rfl)
  | reap hpc' hcur hx hwait hr' => exact Due.idle hr'.cur
  | shut hpc' hset hlt =>
    -- the gate is open while a process is running
    refine hgo rfl rfl (fun _ hin => absurd hin (by rintro ⟨⟩)) fun hc _ => ?_
    have hd := h.inside hc (by rw [hpc']; rfl)
    omega
  | listen hpc' hopen hrec hnow => exact hinside (by rw [hpc']; rfl) rfl rfl rfl rfl (Or.inr rfl)
  | skip hpc' hopen hnot => exact hinside (by rw [hpc']; rfl) rfl rfl rfl rfl (Or.inr rfl)
  | arrive hpc' hrcv hd =>
    exact hinside (by rw [hpc']; rfl) (by rw [receiveProcess, hpc']; rfl) rfl rfl rfl (Or.inl rfl)
  | sync hpc' hrcv hd hnow => exact hinside (by rw [hpc']; rfl) rfl rfl rfl rfl (Or.inl rfl)
  | last hpc' hrcv hd => exact hinside (by rw [hpc']; rfl) rfl rfl rfl rfl (Or.inl rfl)
  | drop hpc' hrcv h1 h5 h2 =>
    exact hinside (by rw [hpc']; rfl) (by rw [hpc']; rfl) rfl rfl rfl (Or.inl rfl)
  | lastScan hpc' hu =>
    obtain ⟨m, u, b, n, hm, -, rfl⟩ := hu
    refine hgo hm.cur rfl (fun _ hin => absurd hin (by rintro ⟨⟩)) fun hc _ => ?_
    exact h.outside (hm.cur ▸ hc) (Or.inl hpc')

/-- A state of the system, when each process has entered the ready queue last, and when the
running process was dispatched. -/
structure Slices where
  world : World
  entered : Ptr → ℤ
  since : ℤ

/-- Who was not in the ready queue before has entered it, in the tick of the iteration. -/
def entering (w w' : World) (en : Ptr → ℤ) : Ptr → ℤ := fun p =>
  if p ∈ w'.rr.readyQueue ∧ p ∉ w.rr.readyQueue then w'.rr.now else en p

/-- A process that was not running before has been dispatched, at the time the clock shows. -/
def dispatching (w w' : World) (since : ℤ) : ℤ :=
  if w'.rr.currProcess = w.rr.currProcess then since else w'.clock

/-- The runs in lockstep, recorded. -/
def slices (P : Params) : TransitionSystem Slices where
  init a := (system P).init a.world
  step a b := ∃ e, Step P e a.world b.world ∧ Lockstep a.world e ∧
    b.entered = entering a.world b.world a.entered ∧
    b.since = dispatching a.world b.world a.since

theorem slices_reachable {a : Slices} (h : (slices P).Reachable a) :
    (systemIf P (fun _ => True) Lockstep).Reachable a.world := by
  refine TransitionSystem.Reachable.map (T := systemIf P (fun _ => True) Lockstep)
    (f := Slices.world) (fun a ha => ha) ?_ h
  rintro a b - ⟨e, hst, hlock, -⟩
  exact Or.inl ⟨e, hst, hlock⟩

/-- A step of the scheduler keeps the order of the queue and the deadline. -/
theorem Due.sched {clk : Clk} {s : RRState} {t : ℤ} (hq : 1 ≤ P.quantum)
    (hclk : Readings clk w.clock t) (hlock : Lockstep w (.sched clk t)) (htick : Ticking w)
    (hcl : Clocked w.rr) (ha : Arrived w) (hi : Inv (fun _ => True) (fun _ => True) w)
    (hle : w.rr.now ≤ w.clock) (hn : s.readyQueue.Nodup)
    (ht : Turn (fun _ => True) P clk w.rr s) (hl : Lined w.rr en)
    (h : Due P.quantum w.rr en since) (he : Entries w.rr s en en') :
    Lined s en' ∧ Due P.quantum s en' (if s.currProcess = w.rr.currProcess then since else t) := by
  have hdue : w.rr.pc = .algo → clk .extendDue = clk .preemptDue := by
    intro hpc
    rw [Lockstep, hpc] at hlock
    rw [hlock.1]
    rfl
  have hr := ht.requeued hn hdue
  have hnow : w.rr.now ≤ s.now := by
    have := (hclk.2 .now).1
    rcases ht.now with hs | hs <;> omega
  have hfresh : w.rr.brk ∉ w.rr.readyQueue := by
    intro hm
    obtain ⟨x, hx, -⟩ := hi.held.ready _ hm
    exact absurd ((hi.held.fresh _ le_rfl).symm.trans hx) (by simp)
  refine ⟨ht.lined hl he hr hnow hfresh fun d hrcv h1 => ?_, ?_⟩
  · -- what has been sent has arrived, and the clock shows the tick of the turn
    obtain ⟨hpc, hsame⟩ := ht.receiving hrcv
    have hc := (htick.turn (by rw [hpc]; rfl)).1
    have := ha.msgq d ((MsgQueue.perm_of_rcv hrcv).mem_iff.mpr List.mem_cons_self) h1
    omega
  · by_cases hpc : w.rr.pc = .algo
    · exact Due.algo hq ht hpc hlock htick hcl hi.held.toCustody hl h he hr
    · exact Due.other ht hpc hlock htick h he hr hnow

theorem entering_same (h : w'.rr.readyQueue = w.rr.readyQueue) : entering w w' en = en := by
  funext p
  rw [entering, h, if_neg fun hc => hc.2 hc.1]

theorem slices_due (hq : 1 ≤ P.quantum) {a : Slices} (h : (slices P).Reachable a) :
    Lined a.world.rr a.entered ∧ Due P.quantum a.world.rr a.entered a.since := by
  induction h with
  | @init a ha =>
    obtain ⟨l, t, -, -, -, hw⟩ := ha
    rw [hw]
    exact ⟨⟨(fun p x hx => nomatch hx), List.forall_mem_nil _, (fun p x hx => nomatch hx),
      List.Pairwise.nil⟩, Due.idle rfl⟩
  | @step a b ha hst ih =>
    obtain ⟨hl, hd⟩ := ih
    obtain ⟨e, hst, hlock, hen, hsince⟩ := hst
    have hlocked := slices_reachable ha
    have hw : (system P).Reachable a.world := reachable_of_if hlocked
    have hi := reachable_inv hw
    have hi' := reachable_inv (hw.step ⟨e, hst⟩)
    have htick := reachable_ticking (fun _ _ hc => hc) hlocked
    rw [dispatching] at hsince
    have hen' : Entries a.world.rr b.world.rr a.entered b.entered := fun p => by
      rw [hen]
      rfl
    generalize b.world = w' at hst hi' hsince hen hen'
    cases hst with
    | @sched _ clk s t hclk hs =>
      rw [hsince]
      exact Due.sched hq hclk hlock htick (reachable_clocked hw) (reachable_arrived hw) hi
        (reachable_timed hw).now hi'.held.toCustody.ready_nodup (hi.turn hs) hl hd hen'
    | @child _ p s hs =>
      obtain ⟨-, -, hm⟩ := childStep_held hs hi.held
      have hcur : s.currProcess = a.world.rr.currProcess := congrArg Mem.currProcess hm
      have hkept : s.readyQueue = a.world.rr.readyQueue ∧ s.now = a.world.rr.now ∧
          s.nextPreemtionTime = a.world.rr.nextPreemtionTime ∧
          s.contextSwitchUntil = a.world.rr.contextSwitchUntil ∧ s.pc = a.world.rr.pc := by
        obtain ⟨c, -, -, -, ⟨-, rfl⟩ | ⟨-, -, rfl⟩⟩ := childStep_cases hs <;>
          exact ⟨rfl, rfl, rfl, rfl, rfl⟩
      obtain ⟨hrq, hnow, hnext, hcsu, hpc⟩ := hkept
      have hen := hen.trans (entering_same hrq)
      rw [hsince, if_pos hcur]
      exact ⟨hl.of_eq hm hrq hnow hen, hd.of_eq hm hrq hnow hnext hcsu hpc hen⟩
    | _ =>
      have hen := hen.trans (entering_same rfl)
      rw [hsince.trans (if_pos rfl)]
      exact ⟨hl.of_eq rfl rfl rfl hen, hd.of_eq rfl rfl rfl rfl rfl rfl hen⟩

/-- **The law of the time slices**: while a process is running, neither the clock nor the next
preemption is later than a quantum after its dispatch, or a quantum after the first process of
the ready queue has entered it, if that was later. -/
theorem slices_bounded (hq : 1 ≤ P.quantum) {a : Slices} (h : (slices P).Reachable a) {p f : Ptr}
    (hp : a.world.rr.currProcess = some p) (hf : a.world.rr.readyQueue.head? = some f) :
    a.world.clock ≤ max (a.entered f) a.since + P.quantum ∧
      a.world.rr.nextPreemtionTime ≤ max (a.entered f) a.since + P.quantum := by
  obtain ⟨-, hd⟩ := slices_due hq h
  have hlocked := slices_reachable h
  have hne : a.world.rr.currProcess ≠ none := hp ▸ nofun
  have hnext := hd.queue hne f (List.mem_of_mem_head? (hf ▸ rfl))
  have htick := reachable_ticking (fun _ _ hc => hc) hlocked
  have hclosed := reachable_closed (reachable_of_if hlocked)
  refine ⟨le_trans ?_ hnext, hnext⟩
  -- the deadline has not been missed
  by_cases hin : a.world.rr.pc.inTurn = true
  · have := (htick.turn hin).1
    have := (hd.inside hne hin).1
    omega
  · have hout := hd.outside hne
    cases hpc : a.world.rr.pc <;> rw [hpc] at hin hout
    case top =>
      rcases htick.top hpc with ⟨-, hnone⟩ | ⟨-, hc⟩
      · exact absurd hnone hne
      · have := (hout (Or.inr rfl)).1
        omega
    case last =>
      have := (hout (Or.inl rfl)).1
      rcases (htick.last hpc).2 with hc | ⟨hc, -⟩ <;> omega
    case exited => exact absurd (hclosed hpc).2.2 hne
    all_goals exact absurd rfl hin

theorem exists_slices (h : (systemIf P (fun _ => True) Lockstep).Reachable w) :
    ∃ a, (slices P).Reachable a ∧ a.world = w := by
  induction h with
  | @init w h => exact ⟨⟨w, fun _ => 0, 0⟩, .init h, rfl⟩
  | @step w w' _ hst ih =>
    obtain ⟨e, hst, hlock⟩ := hst
    obtain ⟨a, ha, rfl⟩ := ih
    exact ⟨⟨w', entering a.world w' a.entered, dispatching a.world w' a.since⟩,
      ha.step ⟨e, hst, hlock, rfl, rfl⟩, rfl⟩

/-- Two processes arrive at tick 1; one is dispatched, and the other one waits. -/
def waitingRun : List Move :=
  [.observe 1, .send, .send, .sync, .last] ++ List.replicate 11 (.sched 1 1)

theorem slices_bounded_waiting :
    ∃ a : Slices, a.world.rr.currProcess = some 0 ∧ a.world.rr.readyQueue = [1] ∧
      a.world.clock ≤ max (a.entered 1) a.since + 2 ∧
        a.world.rr.nextPreemtionTime ≤ max (a.entered 1) a.since + 2 := by
  have hrun : (playIf (quietParams 2) lockstepCheck (start shortAndLong 1) waitingRun).map
      (fun w => (w.rr.currProcess, w.rr.readyQueue)) = some (some 0, [1]) := by
    decide +kernel
  obtain ⟨w, hw, he⟩ := Option.map_eq_some_iff.mp hrun
  obtain ⟨hcur, hready⟩ := Prod.mk.inj he
  have hstart : (systemIf (quietParams 2) (fun _ => True) Lockstep).Reachable
      (start shortAndLong 1) := by
    refine .init ⟨shortAndLong, 1, ⟨?_, ?_, ?_⟩, fun _ _ => trivial, by decide, rfl⟩ <;> decide
  have hreach := playIf_reachable (fun w e _ hc => lockstep_of_check hc) hstart hw
  obtain ⟨a, ha, rfl⟩ := exists_slices hreach
  exact ⟨a, hcur, hready, slices_bounded (by decide) ha hcur (by rw [hready]; rfl)⟩

end World

end CpuScheduler
