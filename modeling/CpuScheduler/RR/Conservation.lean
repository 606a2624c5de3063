import CpuScheduler.RR.Phases
import CpuScheduler.RR.System

/-!
# No process is lost

The invariant of every run: custody of the processes, whatever the memory operations
keep, and that the processes still on their way have ids of their own. It is proved for
an arbitrary kept predicate of the memory (`CpuScheduler.World.Step.inv`) and gives the
conservation of the processes (`CpuScheduler.World.reachable_conserved`).

What a turn does to the PCBs is summed up in
`CpuScheduler.RRState.Turn.forall_heap`: a property of PCBs that survives being halted
and being dispatched, and holds of new PCBs, holds of all of them.
-/

namespace CpuScheduler

namespace RRState

open Fallible Mem

variable {K : Mem → Prop} {P : Params} {clk : Clk} {s s' : RRState} {p : Ptr} {x y : PCB}
  {m m' : Mem} {Φ : Ptr → PCB → Prop}

/-! ### Properties of all PCBs -/

/-- The property `Φ` holds of every allocated PCB. -/
def ForallHeap (Φ : Ptr → PCB → Prop) (m : Mem) : Prop := ∀ p x, m.heap p = some x → Φ p x

/-- A property of the scheduling side. -/
def OfCore (Φ : Ptr → PCB → Prop) : Prop := ∀ p x y, y.core = x.core → Φ p x → Φ p y

theorem ForallHeap.sameCore (hΦ : OfCore Φ) (h : ForallHeap Φ m) (hm : SameCore m m') :
    ForallHeap Φ m' := by
  intro p y hy
  obtain ⟨x, hx, hc⟩ := hm.pcb hy
  exact hΦ p x y hc (h p x hx)

theorem ForallHeap.withPcb (h : ForallHeap Φ m) (hy : Φ p y) : ForallHeap Φ (m.withPcb p y) := by
  intro q z hz
  by_cases hq : q = p
  · subst hq
    exact Option.some.inj ((withPcb_heap_self ..).symm.trans hz) ▸ hy
  · exact h q z ((withPcb_heap_of_ne hq y).symm.trans hz)

theorem Serves.forall_heap (hΦ : OfCore Φ)
    (hhalt : ∀ p x r, Φ p x → Φ p (x.halt r (clk .reqStopped)))
    (hs : Serves clk s s') (h : ForallHeap Φ s.toMem) : ForallHeap Φ s'.toMem := by
  cases hs with
  | keep _ hm _ => exact h.sameCore hΦ hm
  | block _ _ _ hm _ => exact h.sameCore hΦ hm
  | @switch m rq ck p x page raw op hp hx hd hf hm hrq =>
    have hw := h.withPcb (hhalt p x s.shmRT (h p x hx))
    have hall : ForallHeap Φ m := hw.sameCore hΦ hm
    exact hall

theorem Unblocks.forall_heap (hΦ : OfCore Φ) (hu : Unblocks s s') (h : ForallHeap Φ s.toMem) :
    ForallHeap Φ s'.toMem := by
  obtain ⟨m, u, b, n, hm, -, rfl⟩ := hu
  exact h.sameCore hΦ hm

theorem Dispatches.forall_heap (hΦ : OfCore Φ) (hdisp : ∀ p x, Φ p x → Φ p (x.dispatched clk p))
    (hd : Dispatches P clk s s') (h : ForallHeap Φ s.toMem) : ForallHeap Φ s'.toMem := by
  cases hd with
  | @intro p x m rest line hq hx hstart hm =>
    have hw : ForallHeap Φ (({ s.toMem with currProcess := some p } : Mem).withPcb p
        (x.dispatched clk p)) := ForallHeap.withPcb h (hdisp p x (h p x hx))
    exact hw.sameCore hΦ hm

theorem Decides.forall_heap (hΦ : OfCore Φ)
    (hhalt : ∀ p x r, Φ p x → Φ p (x.halt r (clk .stopped)))
    (hdisp : ∀ p x, Φ p x → Φ p (x.dispatched clk p)) (hd : Decides K P clk s s')
    (h : ForallHeap Φ s.toMem) : ForallHeap Φ s'.toMem := by
  cases hd with
  | stay => exact h
  | extend => exact h
  | @preempt p x s₁ _ hp hx hdue hwait hu hheld hbefore hd =>
    have hstop : ForallHeap Φ (s.stopped clk p x).toMem :=
      h.withPcb (hΦ p (x.halt s.shmRT (clk .stopped)) _ rfl
        (hhalt p x s.shmRT (h p x hx)))
    have h₁ : ForallHeap Φ s₁.toMem := hu.forall_heap hΦ hstop
    exact hd.forall_heap hΦ hdisp h₁
  | @dispatch s₁ hp hd =>
    have h₁ : ForallHeap Φ s₁.toMem := hd.forall_heap hΦ hdisp h
    exact h₁

/-- The reading that a process gets that is taken off the processor. -/
def stopSite : Pc → ClkSite
  | .requests => .reqStopped
  | _ => .stopped

/-- **A property of PCBs that survives being halted and being dispatched**, and holds
of the PCBs of new processes, is kept by every turn. -/
theorem Turn.forall_heap (hΦ : OfCore Φ)
    (hhalt : ∀ p x r, Φ p x → Φ p (x.halt r (clk (stopSite s.pc))))
    (hdisp : s.pc = .algo → ∀ p x, Φ p x → Φ p (x.dispatched clk p))
    (hnew : ∀ d, MsgQueue.rcv ProcessData.mtype (-5) s.msgq = some (d, s'.msgq) → d.mtype = 1 →
      Φ s.brk (createPCB d)) (ht : Turn K P clk s s') (h : ForallHeap Φ s.toMem) :
    ForallHeap Φ s'.toMem := by
  cases ht with
  | @serve s₁ hpc hcur hs =>
    obtain ⟨rq, mq, hf⟩ := fetched_eq clk s
    rw [hf] at hs
    rw [hpc] at hhalt
    have h₁ : ForallHeap Φ s₁.toMem := hs.forall_heap hΦ hhalt h
    exact h₁
  | @firstScan s₁ k hpc hu =>
    have h₁ : ForallHeap Φ s₁.toMem := hu.forall_heap hΦ h
    exact h₁
  | @lastScan s₁ hpc hu =>
    have h₁ : ForallHeap Φ s₁.toMem := hu.forall_heap hΦ h
    exact h₁
  | @reap m p x hpc hcur hx hwait hr =>
    intro q y hy
    by_cases hq : q = p
    · rw [hq, hr.heap, Function.update_self] at hy
      exact nomatch hy
    · exact h q y ((hr.heap_of_ne hq).symm.trans hy)
  | @arrive d rest hpc hrcv hd =>
    intro q y hy
    by_cases hq : q = s.brk
    · subst hq
      have hself : (({ s with msgq := rest } : RRState).receiveProcess d).heap s.brk =
          some (createPCB d) :=
        Function.update_self ..
      exact Option.some.inj (hself.symm.trans hy) ▸ hnew d hrcv hd
    · exact h q y ((Function.update_of_ne hq ..).symm.trans hy)
  | @algo s₁ m print cl hpc hd hm _ =>
    have h₁ : ForallHeap Φ s₁.toMem := by
      rcases hd with ⟨-, hd⟩ | ⟨-, rfl⟩
      · rw [hpc] at hhalt
        exact hd.forall_heap hΦ hhalt (hdisp hpc) h
      · exact h
    show ForallHeap Φ (permit _).toMem
    rw [permit]
    split_ifs <;> exact h₁.sameCore hΦ hm
  | _ => exact h

/-- Messages leave the queue one by one. -/
theorem Turn.msgq (ht : Turn K P clk s s') :
    s'.msgq = s.msgq ∨ ∃ d, MsgQueue.rcv ProcessData.mtype (-5) s.msgq = some (d, s'.msgq) := by
  cases ht with
  | arrive hpc hrcv hd => exact Or.inr ⟨_, hrcv⟩
  | sync hpc hrcv hd hnew => exact Or.inr ⟨_, hrcv⟩
  | last hpc hrcv hd => exact Or.inr ⟨_, hrcv⟩
  | drop hpc hrcv h1 h5 h2 => exact Or.inr ⟨_, hrcv⟩
  | serve hpc hcur hs =>
    obtain ⟨rq, mq, hf⟩ := fetched_eq clk s
    rw [hf] at hs
    cases hs <;> exact Or.inl rfl
  | firstScan hpc hu =>
    obtain ⟨m, u, b, n, hm, -, rfl⟩ := hu
    exact Or.inl rfl
  | lastScan hpc hu =>
    obtain ⟨m, u, b, n, hm, -, rfl⟩ := hu
    exact Or.inl rfl
  | @algo s₁ m print cl hpc hd hm _ =>
    have h₁ : s₁.msgq = s.msgq := by
      rcases hd with ⟨-, hd⟩ | ⟨-, rfl⟩
      · obtain ⟨m, r, b, n, t, u, k, rt, log, ch, c, rfl⟩ := hd.frame
        rfl
      · rfl
    refine Or.inl ?_
    show (permit _).msgq = _
    rw [permit]
    split_ifs <;> exact h₁
  | _ => exact Or.inl rfl

/-- **Processes are received one by one**, and recorded. -/
theorem Turn.admitted (ht : Turn K P clk s s') :
    (s'.admitted = s.admitted ∧ ∀ d, MsgQueue.rcv ProcessData.mtype (-5) s.msgq =
      some (d, s'.msgq) → d.mtype ≠ 1) ∨
    ∃ d, MsgQueue.rcv ProcessData.mtype (-5) s.msgq = some (d, s'.msgq) ∧ d.mtype = 1 ∧
      s'.admitted = s.admitted ++ [d] := by
  -- a queue that has not changed has not been received from
  have hkeep : s'.admitted = s.admitted → s'.msgq = s.msgq → (s'.admitted = s.admitted ∧
      ∀ d, MsgQueue.rcv ProcessData.mtype (-5) s.msgq = some (d, s'.msgq) → d.mtype ≠ 1) := by
    intro hadm hq
    refine ⟨hadm, fun d hrcv => ?_⟩
    have hlen := (MsgQueue.perm_of_rcv hrcv).length_eq
    rw [hq, List.length_cons] at hlen
    omega
  have hother : ∀ {d : ProcessData} {rest : List ProcessData} {n : ℤ},
      MsgQueue.rcv ProcessData.mtype (-5) s.msgq = some (d, rest) → d.mtype = n → n ≠ 1 →
      ∀ d', MsgQueue.rcv ProcessData.mtype (-5) s.msgq = some (d', rest) → d'.mtype ≠ 1 := by
    intro d rest n hrcv hd hn d' hrcv'
    rw [hrcv] at hrcv'
    rw [← (Prod.mk.inj (Option.some.inj hrcv')).1, hd]
    exact hn
  cases ht with
  | arrive hpc hrcv hd => exact Or.inr ⟨_, hrcv, hd, rfl⟩
  | sync hpc hrcv hd hnew => exact Or.inl ⟨rfl, hother hrcv hd (by decide)⟩
  | last hpc hrcv hd => exact Or.inl ⟨rfl, hother hrcv hd (by decide)⟩
  | drop hpc hrcv h1 h5 h2 => exact Or.inl ⟨rfl, hother hrcv rfl h1⟩
  | serve hpc hcur hs =>
    obtain ⟨rq, mq, hf⟩ := fetched_eq clk s
    rw [hf] at hs
    cases hs <;> exact Or.inl (hkeep rfl rfl)
  | firstScan hpc hu =>
    obtain ⟨m, u, b, n, hm, -, rfl⟩ := hu
    exact Or.inl (hkeep rfl rfl)
  | lastScan hpc hu =>
    obtain ⟨m, u, b, n, hm, -, rfl⟩ := hu
    exact Or.inl (hkeep rfl rfl)
  | @algo s₁ m print cl hpc hd hm _ =>
    have h₁ : s₁.admitted = s.admitted ∧ s₁.msgq = s.msgq := by
      rcases hd with ⟨-, hd⟩ | ⟨-, rfl⟩
      · obtain ⟨m, r, b, n, t, u, k, rt, log, ch, c, rfl⟩ := hd.frame
        exact ⟨rfl, rfl⟩
      · exact ⟨rfl, rfl⟩
    have h₂ : ({ ({ s₁ with toMem := m, lastPrint := print, clears := cl } : RRState).permit with
        pc := .last } : RRState).admitted = s₁.admitted ∧
        ({ ({ s₁ with toMem := m, lastPrint := print, clears := cl } : RRState).permit with
          pc := .last } : RRState).msgq = s₁.msgq := by
      rw [permit]
      split_ifs <;> exact ⟨rfl, rfl⟩
    exact Or.inl (hkeep (h₂.1.trans h₁.1) (h₂.2.trans h₁.2))
  | _ => exact Or.inl (hkeep rfl rfl)

/-! ### The moves of the children -/

/-- What a child does when it moves. -/
theorem childStep_cases (h : s.childStep p = some s') : ∃ c, s.child p = some c ∧
    c.stopped = false ∧ c.exited = false ∧ ((c.remainingtime ≤ 0 ∧ s' = s.childExit p c) ∨
      (0 < c.remainingtime ∧ 0 < s.sem ∧ s' = s.childTick p c)) := by
  rw [childStep] at h
  cases hc : s.child p with
  | none => simp only [hc, reduceCtorEq] at h
  | some c =>
    simp only [hc] at h
    split_ifs at h with hgo hdone hsem
    · obtain ⟨hs, he⟩ := not_or.mp hgo
      exact ⟨c, rfl, Bool.eq_false_iff.mpr hs, Bool.eq_false_iff.mpr he,
        Or.inl ⟨hdone, (Option.some.inj h).symm⟩⟩
    · obtain ⟨hs, he⟩ := not_or.mp hgo
      exact ⟨c, rfl, Bool.eq_false_iff.mpr hs, Bool.eq_false_iff.mpr he,
        Or.inr ⟨not_le.mp hdone, Nat.pos_of_ne_zero hsem, (Option.some.inj h).symm⟩⟩

/-- A child does not touch what the scheduler holds. -/
theorem childStep_held {l c : List Ptr} (h : s.childStep p = some s') (hh : Held K s l c) :
    Held K s' l c ∧ s'.msgq = s.msgq ∧ s'.toMem = s.toMem := by
  obtain ⟨c', -, -, -, ⟨-, rfl⟩ | ⟨-, -, rfl⟩⟩ := childStep_cases h
  · exact ⟨hh.of_eq rfl rfl rfl rfl rfl, rfl, rfl⟩
  · exact ⟨hh.of_eq rfl rfl rfl rfl rfl, rfl, rfl⟩

end RRState

namespace World

open Fallible RRState Mem

variable {K : Mem → Prop} {room : Room}
  {adm : ProcessData → Prop} {P : Params} {w w' : World} {e : Event}

/-! ### The invariant of the system -/

/-- The processes that have not been received yet. -/
def pending (w : World) : List ProcessData :=
  w.gen.queue ++ w.rr.msgq.filter fun d => d.mtype = 1

/-- **The invariant of every run.** -/
structure Inv (K : Mem → Prop) (adm : ProcessData → Prop) (w : World) : Prop where
  held : Held K w.rr [] w.rr.currProcess.toList
  ids : (w.pending.map ProcessData.id).Nodup
  new : ∀ d ∈ w.pending, ForallHeap (fun _ x => x.id ≠ d.id) w.rr.toMem
  good : ∀ d ∈ w.pending, adm d ∧ 0 < d.runtime ∧ d.mtype = 1

theorem Inv.incoming (h : Inv K adm w) : Incoming adm w.rr := by
  intro d hd h1
  have hp : d ∈ w.pending :=
    List.mem_append_right _ (List.mem_filter.mpr ⟨hd, decide_eq_true h1⟩)
  exact ⟨(h.good d hp).1, fun p x hx => h.new d hp p x hx.2⟩

/-- The invariant with other processes on their way. -/
theorem Inv.of_perm {l : List ProcessData} (h : Inv K adm w) (hp : w.pending.Perm (l ++ w'.pending))
    (hheld : Held K w'.rr [] w'.rr.currProcess.toList)
    (hnew : ∀ d ∈ w'.pending, ForallHeap (fun _ x => x.id ≠ d.id) w'.rr.toMem) :
    Inv K adm w' := by
  have hsub : ∀ d ∈ w'.pending, d ∈ w.pending := fun d hd =>
    hp.mem_iff.mpr (List.mem_append_right l hd)
  have hnodup : ((l ++ w'.pending).map ProcessData.id).Nodup :=
    ((hp.map ProcessData.id).nodup_iff).mp h.ids
  rw [List.map_append] at hnodup
  exact ⟨hheld, hnodup.of_append_right, hnew, fun d hd => h.good d (hsub d hd)⟩

/-- A message leaves the processes on their way, if it is one of them. -/
theorem pending_perm (w' : World) {d : ProcessData} {rest : List ProcessData}
    (hrcv : MsgQueue.rcv ProcessData.mtype (-5) w.rr.msgq = some (d, rest))
    (hq : w'.gen.queue = w.gen.queue) (hm : w'.rr.msgq = rest) :
    w.pending.Perm ((if d.mtype = 1 then [d] else []) ++ w'.pending) := by
  have hfilter := (MsgQueue.perm_of_rcv hrcv).filter fun d => decide (d.mtype = 1)
  rw [List.filter_cons] at hfilter
  simp only [decide_eq_true_eq] at hfilter
  rw [pending, pending, hq, hm]
  refine (hfilter.append_left w.gen.queue).trans ?_
  split_ifs with h1
  · exact List.perm_middle
  · exact List.Perm.refl _

/-- The scheduler takes processes off the way, it adds none. -/
theorem sched_pending {clk : Clk} {s : RRState} {t : ℤ} (ht : Turn K P clk w.rr s) :
    ∃ l, w.pending.Perm (l ++ pending { w with rr := s, clock := t }) := by
  rcases ht.msgq with he | ⟨d, hrcv⟩
  · exact ⟨[], by rw [List.nil_append, pending, pending, show _ = w.rr.msgq from he]⟩
  · exact ⟨_, pending_perm { w with rr := s, clock := t } hrcv rfl rfl⟩

/-- The other steps leave them as they are. -/
theorem Step.pending_perm (hst : Step P e w w') (h1 : ∀ d ∈ w.pending, d.mtype = 1)
    (he : ∀ clk t, e ≠ .sched clk t) : w'.pending.Perm w.pending := by
  cases hst with
  | sched _ _ => exact absurd rfl (he _ _)
  | @child _ p s hs =>
    obtain ⟨c', -, -, -, ⟨-, rfl⟩ | ⟨-, -, rfl⟩⟩ := childStep_cases hs <;> exact List.Perm.refl _
  | observe _ _ _ => exact List.Perm.refl _
  | @send _ t d q hcur hq hdue =>
    have hd : d.mtype = 1 := by
      refine h1 d (List.mem_append_left _ ?_)
      rw [hq]
      exact List.mem_cons_self
    rw [pending, pending, hq]
    show (q ++ (w.rr.msgq ++ [d]).filter _).Perm _
    rw [List.filter_append, List.filter_cons, if_pos (decide_eq_true hd), List.filter_nil,
      List.cons_append]
    exact ((List.perm_append_singleton d _).append_left q).trans List.perm_middle
  | @sync _ t hcur hq =>
    show (w.gen.queue ++ (w.rr.msgq ++ [syncMsg t]).filter _).Perm _
    rw [List.filter_append]
    exact List.Perm.of_eq (by rw [pending]; simp [syncMsg])
  | last hq hcur hdone =>
    show (w.gen.queue ++ (w.rr.msgq ++ [lastMsg]).filter _).Perm _
    rw [List.filter_append]
    exact List.Perm.of_eq (by rw [pending]; simp [lastMsg, syncMsg])

/-- **A phase keeps the invariant**, and it is one of the moves of the scheduler. -/
theorem sched_inv {clk : Clk} {s : RRState} {t : ℤ} (hK : Kept K room adm) (h : Inv K adm w)
    (hroom : Roomy room clk w.rr) (hs : w.rr.phase P clk = .ok s) :
    Inv K adm { w with rr := s, clock := t } ∧ Turn K P clk w.rr s := by
  obtain ⟨hheld, ht⟩ := (phase_outcome (P := P) hK h.held hroom h.incoming).of_ok hs
  refine ⟨?_, ht⟩
  let w' : World := { w with rr := s, clock := t }
  obtain ⟨l, hperm⟩ : ∃ l, w.pending.Perm (l ++ w'.pending) := sched_pending ht
  show Inv K adm w'
  refine h.of_perm hperm hheld fun d hd => ?_
  refine ht.forall_heap (fun p x y hc hx => (core_id hc).symm ▸ hx) (fun _ _ _ hx => hx)
    (fun _ p x hx => ?_) (fun d' hrcv h1 => ?_) (h.new d ?_)
  · rw [(dispatched_eq clk p x).1]
    exact hx
  · -- the process that is received has an id of its own
    have hp := pending_perm w' hrcv rfl rfl
    rw [if_pos h1] at hp
    have hn := ((hp.map ProcessData.id).nodup_iff).mp h.ids
    rw [List.singleton_append, List.map_cons, List.nodup_cons] at hn
    intro he
    have hid : d'.id = d.id := he
    exact hn.1 (hid ▸ List.mem_map_of_mem hd)
  · exact hperm.mem_iff.mpr (List.mem_append_right l hd)

/-- A message is posted: the processes on their way are the same. -/
theorem Inv.post (h : Inv K adm w) (d : ProcessData) (g : Generator)
    (hp : (w.post d g).pending.Perm w.pending) : Inv K adm (w.post d g) :=
  h.of_perm (l := []) hp.symm (h.held.of_eq rfl rfl rfl rfl rfl)
    fun d' hd' => h.new d' (hp.mem_iff.mp hd')

/-- **Every step keeps the invariant.** -/
theorem Step.inv (hK : Kept K room adm) (hst : Step P e w w') (h : Inv K adm w)
    (hroom : ∀ clk t, e = .sched clk t → Roomy room clk w.rr) : Inv K adm w' := by
  have h1 : ∀ d ∈ w.pending, d.mtype = 1 := fun d hd => (h.good d hd).2.2
  cases hst with
  | sched _ hs => exact (sched_inv hK h (hroom _ _ rfl) hs).1
  | @child _ p s hs =>
    obtain ⟨hheld, -, hmem⟩ := childStep_held hs h.held
    have hcur : s.currProcess = w.rr.currProcess := congrArg Mem.currProcess hmem
    have hp := (Step.child (P := P) hs).pending_perm h1 fun _ _ => nofun
    refine h.of_perm (l := []) hp.symm ?_ fun d hd => ?_
    · show Held K s [] s.currProcess.toList
      rw [hcur]
      exact hheld
    · show ForallHeap _ s.toMem
      rw [hmem]
      exact h.new d (hp.mem_iff.mp hd)
  | observe _ _ _ => exact ⟨h.held, h.ids, h.new, h.good⟩
  | send hcur hq hdue =>
    exact h.post _ _ ((Step.send (P := P) hcur hq hdue).pending_perm h1 fun _ _ => nofun)
  | sync hcur hq => exact h.post _ _ ((Step.sync (P := P) hcur hq).pending_perm h1 fun _ _ => nofun)
  | last hq hcur hdone =>
    exact h.post _ _ ((Step.last (P := P) hq hcur hdone).pending_perm h1 fun _ _ => nofun)

/-- The state in front of the main loop. -/
theorem start_inv (hK : K Mem.init) {l : List ProcessData} (hl : Workload l) (hadm : ∀ d ∈ l, adm d)
    (t : ℤ) : Inv K adm (start l t) where
  held := by
    refine ⟨⟨rfl, init_wf, fun _ _ => rfl, List.forall_mem_nil _, List.forall_mem_nil _,
      List.forall_mem_nil _, rfl, List.nodup_nil, List.forall_mem_nil _⟩, hK⟩
  ids := by
    rw [show (start l t).pending = l from List.append_nil l]
    exact hl.ids
  new d hd p x hx := nomatch hx
  good d hd := by
    rw [show (start l t).pending = l from List.append_nil l] at hd
    exact ⟨hadm d hd, hl.runtime d hd, hl.mtype d hd⟩

/-- **The invariant holds in every state of every run** in which there is room. -/
theorem reachable_inv_if {C : World → Event → Prop} (hK : Kept K room adm) (hinit : K Mem.init)
    (hroom : ∀ w clk t, C w (.sched clk t) → Roomy room clk w.rr)
    (h : (systemIf P adm C).Reachable w) : Inv K adm w := by
  refine h.invariant (P := Inv K adm) ?_ ?_
  · rintro w ⟨l, t, hl, hadm, -, rfl⟩
    exact start_inv hinit hl hadm t
  · rintro w w' hi ⟨e, hst, hC⟩
    refine hst.inv hK hi fun clk t he => ?_
    subst he
    exact hroom w clk t hC

theorem reachable_if_true (h : (systemOn P adm).Reachable w) :
    (systemIf P adm fun _ _ => True).Reachable w := by
  induction h with
  | init h => exact .init h
  | step _ hst ih =>
    obtain ⟨e, hst⟩ := hst
    exact ih.step ⟨e, hst, trivial⟩

/-- The invariant of the scheduling side needs nothing of the memory. -/
theorem reachable_inv (h : (system P).Reachable w) :
    Inv (fun _ => True) (fun _ => True) w :=
  reachable_inv_if kept_true trivial (fun _ _ _ _ => ⟨fun _ _ _ _ _ => trivial,
    fun _ _ _ _ _ => trivial⟩) (reachable_if_true h)

/-- A phase is one of the moves of the scheduler. -/
theorem Inv.turn {clk : Clk} {s : RRState} (h : Inv (fun _ => True) (fun _ => True) w)
    (hs : w.rr.phase P clk = .ok s) : Turn (fun _ => True) P clk w.rr s :=
  (sched_inv (t := 0) kept_true h
    ⟨fun _ _ _ _ _ => trivial, fun _ _ _ _ _ => trivial⟩ hs).2

/-- What is still on its way was on its way before. -/
theorem Step.pending_subset (hst : Step P e w w') (h : Inv (fun _ => True) (fun _ => True) w) :
    w'.pending ⊆ w.pending := by
  have h1 : ∀ d ∈ w.pending, d.mtype = 1 := fun d hd => (h.good d hd).2.2
  cases hst with
  | @sched _ clk s t _ hs =>
    obtain ⟨l, hl⟩ := sched_pending (t := t) (h.turn hs)
    exact fun d hd => hl.mem_iff.mpr (List.mem_append_right l hd)
  | child hs => exact ((Step.child (P := P) hs).pending_perm h1 fun _ _ => nofun).subset
  | observe _ _ _ => exact List.Subset.refl _
  | send hcur hq hdue =>
    exact ((Step.send (P := P) hcur hq hdue).pending_perm h1 fun _ _ => nofun).subset
  | sync hcur hq => exact ((Step.sync (P := P) hcur hq).pending_perm h1 fun _ _ => nofun).subset
  | last hq hcur hdone =>
    exact ((Step.last (P := P) hq hcur hdone).pending_perm h1 fun _ _ => nofun).subset

/-! ### The time of the next preemption -/

/-- The tick of the turn is not ahead of the clock, and while a process is running the
next preemption is at least a quantum after tick 1. -/
structure Timed (q : ℤ) (s : RRState) (clock : ℤ) : Prop where
  now : s.now ≤ clock
  next : s.currProcess.isSome → 1 + q ≤ s.nextPreemtionTime

theorem Timed.of_eq {q t t' : ℤ} {s s' : RRState} (h : Timed q s t) (ht : t ≤ t')
    (hn : s'.now = s.now) (hc : s'.currProcess = s.currProcess)
    (hp : s'.nextPreemtionTime = s.nextPreemtionTime) : Timed q s' t' :=
  ⟨hn ▸ le_trans h.now ht, fun hs => hp ▸ h.next (hc ▸ hs)⟩

theorem Timed.of_unblocks {q t t' : ℤ} {s s' : RRState} (h : Timed q s t) (ht : t ≤ t')
    (hu : Unblocks s s') : Timed q s' t' := by
  obtain ⟨m, u, b, n, hm, -, rfl⟩ := hu
  exact h.of_eq ht rfl hm.cur rfl

/-- `RR_algo` sets the time of the next preemption whenever it chooses a process. -/
theorem Timed.of_decides {t t' : ℤ} {clk : Clk} {s s' : RRState} (h : Timed P.quantum s t)
    (hclk : Readings clk t t') (hpos : 0 < s.now) (hd : Decides K P clk s s') :
    Timed P.quantum s' t' := by
  have hread : ∀ x, 1 ≤ clk x := fun x => by
    have := h.now
    have := (hclk.2 x).1
    omega
  cases hd with
  | stay => exact h.of_eq hclk.1 rfl rfl rfl
  | extend hp =>
    refine ⟨le_trans h.now hclk.1, fun _ => ?_⟩
    have := hread .extendNext
    show _ ≤ clk .extendNext + P.quantum
    omega
  | preempt hp hx hdue hwait hu hheld hbefore hd =>
    obtain ⟨m, u, b, n, hm, -, rfl⟩ := hu
    cases hd with
    | intro hq hx hstart hm =>
      refine ⟨le_trans h.now hclk.1, fun _ => ?_⟩
      have := hread .nextPreemption
      show _ ≤ clk .nextPreemption + P.quantum
      omega
  | dispatch hp hd =>
    cases hd with
    | intro hq hx hstart hm =>
      refine ⟨le_trans h.now hclk.1, fun _ => ?_⟩
      have := hread .nextPreemption
      show _ ≤ clk .nextPreemption + P.quantum
      omega

/-- A turn keeps the times right. -/
theorem Timed.of_turn {t t' : ℤ} {clk : Clk} {s s' : RRState} (h : Timed P.quantum s t)
    (hclk : Readings clk t t') (ht : Turn K P clk s s') : Timed P.quantum s' t' := by
  cases ht with
  | tick hpc hnew => exact ⟨(hclk.2 .now).2, h.next⟩
  | serve hpc hcur hs =>
    obtain ⟨rq, mq, hf⟩ := fetched_eq clk s
    rw [hf] at hs
    cases hs with
    | keep hd hm hrq => exact h.of_eq hclk.1 rfl hm.cur rfl
    | block hx hd hf hm hrq => exact h.of_eq hclk.1 rfl hm.cur rfl
    | switch hp hx hd hf hm hrq => exact ⟨le_trans h.now hclk.1, fun hs => nomatch hs⟩
  | firstScan hpc hu => exact (h.of_unblocks hclk.1 hu).of_eq le_rfl rfl rfl rfl
  | lastScan hpc hu => exact (h.of_unblocks hclk.1 hu).of_eq le_rfl rfl rfl rfl
  | reap hpc hcur hx hwait hr =>
    refine ⟨le_trans h.now hclk.1, fun hs => ?_⟩
    rw [show RRState.toMem _ = _ from rfl] at hs
    exact absurd hs (by rw [hr.cur]; exact nofun)
  | @algo s₁ m print cl hpc hd hm _ =>
    have h₁ : Timed P.quantum s₁ t' := by
      rcases hd with ⟨hpos, hd⟩ | ⟨-, rfl⟩
      · exact h.of_decides hclk hpos hd
      · exact h.of_eq hclk.1 rfl rfl rfl
    have h₂ : Timed P.quantum { s₁ with toMem := m, lastPrint := print, clears := cl } t' :=
      h₁.of_eq le_rfl rfl hm.cur rfl
    rw [permit]
    split_ifs <;> exact h₂.of_eq le_rfl rfl rfl rfl
  | _ => exact h.of_eq hclk.1 rfl rfl rfl

theorem reachable_timed (h : (system P).Reachable w) : Timed P.quantum w.rr w.clock := by
  refine h.invariant_of (J := Inv (fun _ => True) fun _ => True)
    (P := fun w => Timed P.quantum w.rr w.clock) (fun _ => reachable_inv) ?_ ?_
  · rintro w ⟨l, t, -, -, ht, rfl⟩
    exact ⟨ht, fun hs => nomatch hs⟩
  · rintro w w' hi h ⟨e, hst⟩
    cases hst with
    | @sched _ clk s t hclk hs => exact h.of_turn hclk (hi.turn hs)
    | @child _ p s hs =>
      obtain ⟨c, -, -, -, ⟨-, rfl⟩ | ⟨-, -, rfl⟩⟩ := childStep_cases hs <;>
        exact h.of_eq le_rfl rfl rfl rfl
    | observe _ _ ht => exact h.of_eq ht rfl rfl rfl
    | send _ _ _ => exact h.of_eq le_rfl rfl rfl rfl
    | sync _ _ => exact h.of_eq le_rfl rfl rfl rfl
    | last _ _ _ => exact h.of_eq le_rfl rfl rfl rfl

/-! ### The end of the loop -/

/-- Once the loop is left, nothing is left to do. -/
def Closed (s : RRState) : Prop :=
  s.pc = .exited → s.readyQueue = [] ∧ s.blockQueue = [] ∧ s.currProcess = none

theorem Closed.of_turn {clk : Clk} {s s' : RRState} (ht : Turn K P clk s s') : Closed s' := by
  intro hex
  cases ht with
  | exit hpc hready hblock hrec hcur => exact ⟨hready, hblock, hcur⟩
  | spin hpc => exact nomatch hpc.symm.trans hex
  | arrive hpc hrcv hd => exact nomatch hpc.symm.trans hex
  | drop hpc hrcv h1 h5 h2 => exact nomatch hpc.symm.trans hex
  | _ => exact nomatch hex

theorem reachable_closed (h : (system P).Reachable w) : Closed w.rr := by
  refine h.invariant_of (J := Inv (fun _ => True) fun _ => True)
    (P := fun w => Closed w.rr) (fun _ => reachable_inv) ?_ ?_
  · rintro w ⟨l, t, -, -, ht, rfl⟩ hex
    exact nomatch hex
  · rintro w w' hi h ⟨e, hst⟩
    cases hst with
    | sched hclk hs => exact Closed.of_turn (hi.turn hs)
    | @child _ p s hs =>
      obtain ⟨c, -, -, -, ⟨-, rfl⟩ | ⟨-, -, rfl⟩⟩ := childStep_cases hs
      · exact h
      · exact h
    | _ => exact h

/-! ### Conservation -/

/-- **The processes are conserved**, in a scheduler with the quantum `q`. -/
structure Conserved (q : ℤ) (s : RRState) : Prop where
  /-- `currentPCBs` holds each received, unfinished process exactly once. -/
  live : s.currentPCBs.Nodup ∧ s.received.Perm (s.finished ++ s.currentPCBs) ∧ s.received.Nodup
  /-- Each of them is in exactly one place, once. -/
  places : (s.currProcess.toList ++ s.readyQueue ++ s.blockQueue).Perm s.currentPCBs
  running : ∀ p, s.currProcess = some p → InState s.toMem .R p
  ready : ∀ p ∈ s.readyQueue, InState s.toMem .W p
  blocked : ∀ p ∈ s.blockQueue, InState s.toMem .B p
  /-- A process that is running has a time for its next preemption. -/
  next : -1 ≤ q → s.currProcess ≠ none → s.nextPreemtionTime ≠ -1
  /-- Nothing is taken out of an empty queue. -/
  underflow : ∀ P clk, s.phase P clk ≠ .error .underflow
  /-- Everything has been finished, once, when the loop is left. -/
  exit : s.pc = .exited → s.finished.Perm s.received ∧ s.finished.Nodup

/-- Custody is conservation. -/
theorem Inv.conserved (h : Inv (fun _ => True) (fun _ => True) w)
    (htime : Timed P.quantum w.rr w.clock) (hcl : Closed w.rr) : Conserved P.quantum w.rr := by
  have hc := h.held.toCustody
  have hplaces : (w.rr.currProcess.toList ++ w.rr.readyQueue ++ w.rr.blockQueue).Perm
      w.rr.currentPCBs := by
    refine Multiset.coe_eq_coe.mp ?_
    rw [hc.places, Multiset.coe_nil, zero_add, ← Multiset.coe_add, ← Multiset.coe_add]
  have hhist : w.rr.received.Perm (w.rr.finished ++ w.rr.currentPCBs) := by
    refine Multiset.coe_eq_coe.mp ?_
    rw [hc.history, ← Multiset.coe_add]
  have hrun : ∀ p, w.rr.currProcess = some p → InState w.rr.toMem .R p := fun p hp =>
    hc.running p (Option.mem_toList.mpr hp)
  refine ⟨⟨hc.wf.nodup, hhist, hc.once⟩, hplaces, hrun, hc.ready, hc.blocked, fun hq hcur => ?_,
    fun P clk he => ?_, fun hex => ?_⟩
  · have := htime.next (Option.isSome_iff_ne_none.mpr hcur)
    omega
  · have hout : PhaseOutcome _ P clk w.rr _ := phase_outcome kept_true h.held
      ⟨fun _ _ _ _ _ => trivial, fun _ _ _ _ _ => trivial⟩ h.incoming
    exact hout.of_error he rfl
  · obtain ⟨hr, hb, hcur⟩ := hcl hex
    rw [hr, hb, hcur] at hplaces
    have hnil : w.rr.currentPCBs = [] := List.Perm.nil_eq hplaces |>.symm
    rw [hnil, List.append_nil] at hhist
    exact ⟨hhist.symm, hhist.nodup_iff.mp hc.once⟩

/-- **No process is lost.** In every state of every run each received process that has
not finished is held exactly once, in the state of its holder, and everything has been
finished when the loop is left. -/
theorem reachable_conserved (h : (system P).Reachable w) : Conserved P.quantum w.rr :=
  (reachable_inv h).conserved (reachable_timed h) (reachable_closed h)

/-! ### Explicit runs -/

/-- A scheduler whose processes make no requests. -/
def quietParams (quantum : ℤ) : Params where
  quantum := quantum
  k := 0
  requestFile := fun _ => []

/-- At tick 1, the process is received and dispatched. -/
def firstTick : List Move := [.observe 1, .send, .sync] ++ List.replicate 9 (.sched 1 1)

/-- The first tick is a run. -/
theorem firstTick_reachable {w : World}
    (h : playAll P (start [soleProcess 2] 1) firstTick = some w) : (system P).Reachable w :=
  playAll_reachable (.init ⟨_, 1, workload_sole 2, fun _ _ => trivial, by decide, rfl⟩) h

/-- Three processes that arrive together, with 2, 20 and 1 ticks to execute. -/
def threeAtOnce : List ProcessData :=
  [(1, 2), (2, 20), (3, 1)].map fun a => { soleProcess 2 with id := a.1, runtime := a.2 }

theorem workload_threeAtOnce : Workload threeAtOnce := by
  refine ⟨?_, ?_, ?_⟩ <;> decide

/-- A line of a request file. -/
def requestAt (tick : ℤ) (address : String) (operation : Char) : Request :=
  { mtype := 0, tick := tick, address := address.toList, operation := operation }

/-- The process 1 asks for its page 1, which is not loaded. The process 2 asks for its page 0,
which is, and for a page it does not have. -/
def threeParams : Params where
  quantum := 2
  k := 2
  requestFile := fun id =>
    if id = 1 then [requestAt 0 "16" 'r']
    else if id = 2 then [requestAt 0 "4" 'w', requestAt 1 "99" 'r']
    else []

/-- Steps of the scheduler at the tick `t`. -/
def stepsAt (n : ℕ) (t : ℤ) : List Move := List.replicate n (.sched t t)

/-- The process 1 executes at tick 1 and is blocked at tick 2; the process 2 executes from tick 3
on. -/
def blockedRun : List Move := List.flatten
  [[.observe 1, .send, .send, .send, .sync, .last], stepsAt 11 1, [.child 0], stepsAt 6 2,
    stepsAt 8 3, [.child 1], stepsAt 7 4, [.child 1]]

/-- At tick 5 it is preempted. The process 3 executes at tick 6. -/
def preemptedRun : List Move := List.flatten
  [blockedRun, stepsAt 5 5, [.sched 5 6, .sched 6 6], stepsAt 7 6, [.child 2, .child 2]]

/-- It finishes at tick 7, and the process 2 goes on for two quanta, up to the end of tick 12. -/
def asleepRun : List Move := List.flatten
  [preemptedRun, stepsAt 7 7, stepsAt 7 8, [.child 1], stepsAt 7 9, [.child 1], stepsAt 7 10,
    [.child 1], stepsAt 7 11, [.child 1], stepsAt 6 12]

/-- The process 1 is ready again, and `RR_algo` is about to preempt the process 2 at tick 14. -/
def wokenRun : List Move := List.flatten
  [asleepRun, stepsAt 1 12, [.child 1], stepsAt 7 13, [.child 1], stepsAt 5 14]

/-- The process 1 executes at tick 15 and finishes. -/
def resumedRun : List Move := List.flatten
  [wokenRun, [.sched 14 15, .sched 15 15], stepsAt 7 15, [.child 0, .child 0], stepsAt 7 16]

/-- One process is running, one is ready, and one is blocked. -/
theorem reachable_conserved_preempted :
    ∃ w, playAll threeParams (start threeAtOnce 1) preemptedRun = some w ∧
      w.rr.currProcess = some 2 ∧ w.rr.readyQueue = [1] ∧ w.rr.blockQueue = [0] ∧
      Conserved 2 w.rr := by
  have hrun : (playAll threeParams (start threeAtOnce 1) preemptedRun).map
      (fun w => (w.rr.currProcess, w.rr.readyQueue, w.rr.blockQueue)) =
        some (some 2, [1], [0]) := by
    decide +kernel
  obtain ⟨w, hw, he⟩ := Option.map_eq_some_iff.mp hrun
  simp only [Prod.mk.injEq] at he
  obtain ⟨hcur, hready, hblock⟩ := he
  exact ⟨w, hw, hcur, hready, hblock, reachable_conserved (playAll_reachable
    (.init ⟨_, 1, workload_threeAtOnce, fun _ _ => trivial, by decide, rfl⟩) hw)⟩

/-- **With a quantum of `-2`**, the process that is dispatched at tick 1 is running and
its next preemption is at `-1`. -/
theorem not_timed_negativeQuantum :
    ¬∀ (P : Params) (w : World), (system P).Reachable w → w.rr.pc = .top →
      w.rr.currProcess ≠ none → w.rr.nextPreemtionTime ≠ -1 := by
  intro hall
  have hrun : (playAll (quietParams (-2)) (start [soleProcess 2] 1) firstTick).map
      (fun w => (w.rr.pc, w.rr.currProcess, w.rr.nextPreemtionTime)) =
        some (.top, some 0, -1) := by
    decide
  obtain ⟨w, hw, he⟩ := Option.map_eq_some_iff.mp hrun
  simp only [Prod.mk.injEq] at he
  obtain ⟨hpc, hcur, hnext⟩ := he
  exact hall _ w (firstTick_reachable hw) hpc (by rw [hcur]; exact Option.some_ne_none 0) hnext

end World

end CpuScheduler
