import CpuScheduler.RR.Conservation

/-!
# Requests come from processes that have been started

A child is started with its process, and only children post requests. So every request
that waits is one of a process that has been started – or of one that has finished since,
whose id nobody has any more: `CpuScheduler.World.Asked`.
-/

namespace CpuScheduler

namespace RRState

open Fallible Mem

variable {K : Mem → Prop} {P : Params} {clk : Clk} {s s' t : RRState} {p q : Ptr} {x y : PCB}
  {m m' : Mem} {c c' : Child}

/-! ### Processes go on -/

/-- The process has been started, and has the id `i`. -/
def Begun (m : Mem) (p : Ptr) (i : ℤ) : Prop := ∃ x, m.heap p = some x ∧ x.id = i ∧ x.pid ≠ -1

/-- Every PCB is one of a live process. -/
def Tracked (m : Mem) : Prop := ForallHeap (fun p _ => p ∈ m.currentPCBs) m

/-- From `s` to `s'` no process is given up: PCBs keep their ids, a process that has been
started stays so, and a process that is running or has a child in `s'` had so before or
has been started. -/
structure Onward (s s' : RRState) : Prop where
  heap : ∀ {q x}, s.heap q = some x →
    ∃ y, s'.heap q = some y ∧ y.id = x.id ∧ (x.pid ≠ -1 → y.pid ≠ -1)
  cur : ∀ {q}, s'.currProcess = some q → s.currProcess = some q ∨ ∃ i, Begun s'.toMem q i
  child : ∀ {q c'}, s'.child q = some c' → (∃ c, s.child q = some c ∧ c'.id = c.id) ∨
    Begun s'.toMem q c'.id
  tracked : Tracked s.toMem → Tracked s'.toMem

theorem Onward.refl (s : RRState) : Onward s s :=
  ⟨fun hx => ⟨_, hx, rfl, id⟩, Or.inl, fun hc => Or.inl ⟨_, hc, rfl⟩, id⟩

theorem Onward.begun (h : Onward s s') {i : ℤ} (hb : Begun s.toMem q i) : Begun s'.toMem q i := by
  obtain ⟨x, hx, hid, hpid⟩ := hb
  obtain ⟨y, hy, hid', hpid'⟩ := h.heap hx
  exact ⟨y, hy, hid'.trans hid, hpid' hpid⟩

theorem Onward.trans (h : Onward s s') (h' : Onward s' t) : Onward s t where
  heap hx := by
    obtain ⟨y, hy, hid, hpid⟩ := h.heap hx
    obtain ⟨z, hz, hid', hpid'⟩ := h'.heap hy
    exact ⟨z, hz, hid'.trans hid, fun hp => hpid' (hpid hp)⟩
  cur hq := by
    rcases h'.cur hq with hq | hb
    · rcases h.cur hq with hq | ⟨i, hb⟩
      · exact Or.inl hq
      · exact Or.inr ⟨i, h'.begun hb⟩
    · exact Or.inr hb
  child hc := by
    rcases h'.child hc with ⟨c, hc, hid⟩ | hb
    · rcases h.child hc with ⟨c₀, hc₀, hid₀⟩ | hb
      · exact Or.inl ⟨c₀, hc₀, hid.trans hid₀⟩
      · exact Or.inr (hid.symm ▸ h'.begun hb)
    · exact Or.inr hb
  tracked ht := h'.tracked (h.tracked ht)

theorem Tracked.sameCore (h : Tracked m) (hm : SameCore m m') : Tracked m' := by
  intro q y hy
  obtain ⟨x, hx, -⟩ := hm.pcb hy
  exact hm.pcbs ▸ h q x hx

theorem Tracked.withPcb (h : Tracked m) (hx : m.heap p = some x) (y : PCB) :
    Tracked (m.withPcb p y) :=
  ForallHeap.withPcb h (h p x hx)

/-- A change of memory that the scheduling side does not see. -/
theorem Onward.of_sameCore (hm : SameCore s.toMem s'.toMem) (hc : s'.child = s.child) :
    Onward s s' where
  heap hx := by
    obtain ⟨y, hy, hcore⟩ := hm.symm.pcb hx
    have hf := core_eq hcore
    exact ⟨y, hy, hf.1.symm, fun hp => hf.2.2.2.2.2.2.2.1 ▸ hp⟩
  cur hq := Or.inl (hm.cur ▸ hq)
  child hq := Or.inl ⟨_, hc ▸ hq, rfl⟩
  tracked ht := ht.sameCore hm

/-- The children, after one of them has been stopped or continued. -/
theorem mapped_child {f : Child → Child} (hf : ∀ c, (f c).id = c.id)
    (h : Function.update s.child p ((s.child p).map f) q = some c') :
    ∃ c, s.child q = some c ∧ c'.id = c.id := by
  by_cases hq : q = p
  · subst hq
    rw [Function.update_self] at h
    obtain ⟨c, hc, rfl⟩ := Option.map_eq_some_iff.mp h
    exact ⟨c, hc, hf c⟩
  · rw [Function.update_of_ne hq] at h
    exact ⟨c', h, rfl⟩

theorem signal_child {b : Bool} (h : (s.signal p b).child q = some c') :
    ∃ c, s.child q = some c ∧ c'.id = c.id :=
  mapped_child (f := fun c => { c with stopped := b }) (fun _ => rfl) h

theorem Serves.onward (hs : Serves clk s s') : Onward s s' := by
  cases hs with
  | keep _ hm _ => exact .of_sameCore hm rfl
  | block _ _ _ hm _ => exact .of_sameCore hm rfl
  | @switch m rq ck p x page raw op hp hx hd hf hm hrq =>
    refine ⟨fun {q z} hz => ?_, (fun hq => nomatch hq), fun {q c'} hc => Or.inl ?_, fun ht => ?_⟩
    · -- the process that is switched from keeps its id and its process id
      obtain ⟨y, hy, hid, hpid⟩ : ∃ y, (s.toMem.withPcb p (x.halt s.shmRT
          (clk .reqStopped))).heap q = some y ∧ y.id = z.id ∧ y.pid = z.pid := by
        by_cases hq : q = p
        · subst hq
          obtain rfl := Option.some.inj (hx.symm.trans hz)
          exact ⟨_, withPcb_heap_self .., rfl, rfl⟩
        · exact ⟨z, (withPcb_heap_of_ne hq _).trans hz, rfl, rfl⟩
      obtain ⟨u, hu, hcore⟩ := hm.symm.pcb hy
      have hf := core_eq hcore
      exact ⟨u, hu, hf.1.symm.trans hid, fun hne => by
        have := hf.2.2.2.2.2.2.2.1
        omega⟩
    · dsimp only at hc
      split_ifs at hc
      · exact signal_child hc
      · exact ⟨c', hc, rfl⟩
    · have h₁ : Tracked m := (ht.withPcb hx _).sameCore hm
      exact h₁

theorem Unblocks.onward (hu : Unblocks s s') : Onward s s' := by
  obtain ⟨m, u, b, n, hm, -, rfl⟩ := hu
  exact .of_sameCore hm rfl

theorem dispatched_pid (clk : Clk) (p : Ptr) (x : PCB) :
    (x.dispatched clk p).id = x.id ∧ (x.dispatched clk p).pid ≠ -1 := by
  unfold PCB.dispatched PCB.stamped
  split_ifs with hp hs hs
  · exact ⟨rfl, show (p : ℤ) + 1 ≠ -1 by omega⟩
  · exact ⟨rfl, show (p : ℤ) + 1 ≠ -1 by omega⟩
  · exact ⟨rfl, hp⟩
  · exact ⟨rfl, hp⟩

/-- A process that is dispatched has been started. -/
theorem Dispatches.onward (hd : Dispatches P clk s s') : Onward s s' := by
  cases hd with
  | @intro p x m rest line hq hx hstart hm =>
    obtain ⟨hid, hpid⟩ := dispatched_pid clk p x
    have hbegun : Begun m p x.id := by
      obtain ⟨y, hy, hcore⟩ := hm.symm.pcb (withPcb_heap_self ..)
      have hf := core_eq hcore
      exact ⟨y, hy, hf.1.symm.trans hid, fun he => hpid (hf.2.2.2.2.2.2.2.1.trans he)⟩
    refine ⟨fun {q z} hz => ?_, fun {q} hc => Or.inr ?_, fun {q c'} hc => ?_, fun ht => ?_⟩
    · by_cases hq : q = p
      · subst hq
        obtain rfl := Option.some.inj (hx.symm.trans hz)
        obtain ⟨y, hy, hid, hpid⟩ := hbegun
        exact ⟨y, hy, hid, fun _ => hpid⟩
      · have hz' : (({ s.toMem with currProcess := some p } : Mem).withPcb p
            (x.dispatched clk p)).heap q = some z := (withPcb_heap_of_ne hq _).trans hz
        obtain ⟨y, hy, hcore⟩ := hm.symm.pcb hz'
        have hf := core_eq hcore
        exact ⟨y, hy, hf.1.symm, fun hp => hf.2.2.2.2.2.2.2.1 ▸ hp⟩
    · have hcur : m.currProcess = some p := hm.cur
      obtain rfl := Option.some.inj (hcur.symm.trans hc)
      exact ⟨_, hbegun⟩
    · have hc : s.launchedChild P p x q = some c' := hc
      rw [launchedChild] at hc
      split_ifs at hc with hnew
      · by_cases hq : q = p
        · subst hq
          rw [Function.update_self] at hc
          obtain rfl := Option.some.inj hc
          exact Or.inr hbegun
        · rw [Function.update_of_ne hq] at hc
          exact Or.inl ⟨c', hc, rfl⟩
      · exact Or.inl (mapped_child (f := fun c => { c with stopped := false }) (fun _ => rfl) hc)
    · have hchoose : Tracked ({ s.toMem with currProcess := some p } : Mem) := ht
      exact (hchoose.withPcb hx _).sameCore hm

theorem stopped_onward (hx : s.heap p = some x) : Onward s (s.stopped clk p x) where
  heap {q z} hz := by
    by_cases hq : q = p
    · subst hq
      obtain rfl := Option.some.inj (hx.symm.trans hz)
      exact ⟨_, withPcb_heap_self .., rfl, id⟩
    · exact ⟨z, (withPcb_heap_of_ne hq _).trans hz, rfl, id⟩
  cur hq := Or.inl hq
  child hc := Or.inl (signal_child hc)
  tracked ht := ht.withPcb hx _

theorem Decides.onward (hd : Decides K P clk s s') : Onward s s' := by
  cases hd with
  | stay => exact .refl s
  | extend hp => exact .of_sameCore (SameCore.refl _) rfl
  | preempt hp hx hdue hwait hu hheld hbefore hd =>
    have h₁ := hd.onward
    exact ((stopped_onward hx).trans hu.onward).trans ⟨h₁.heap, h₁.cur, h₁.child, h₁.tracked⟩
  | dispatch hp hd =>
    have h₁ := hd.onward
    exact ⟨h₁.heap, h₁.cur, h₁.child, h₁.tracked⟩

/-- **A turn gives up no process** but the one that has finished. -/
theorem Turn.onward (ht : Turn K P clk s s') (hpc : s.pc ≠ .reap) (hfresh : s.toMem.Fresh) :
    Onward s s' := by
  cases ht with
  | serve hpc hcur hs =>
    obtain ⟨rq, mq, hf⟩ := fetched_eq clk s
    rw [hf] at hs
    have h₁ := hs.onward
    exact ⟨h₁.heap, h₁.cur, h₁.child, h₁.tracked⟩
  | firstScan hpc hu =>
    have h₁ := hu.onward
    exact ⟨h₁.heap, h₁.cur, h₁.child, h₁.tracked⟩
  | lastScan hpc hu =>
    have h₁ := hu.onward
    exact ⟨h₁.heap, h₁.cur, h₁.child, h₁.tracked⟩
  | reap hreap _ _ _ _ => exact absurd hreap hpc
  | @arrive d rest hpc hrcv hd =>
    refine ⟨fun {q x} hx => ⟨x, ?_, rfl, id⟩, Or.inl, fun hc => Or.inl ⟨_, hc, rfl⟩, ?_⟩
    · have hq : q ≠ s.brk := by
        rintro rfl
        exact nomatch (hfresh s.brk le_rfl).symm.trans hx
      exact (Function.update_of_ne hq ..).trans hx
    · intro ht q y hy
      refine Queue.mem_enqueue.mpr ?_
      by_cases hq : q = s.brk
      · exact Or.inr hq
      · exact Or.inl (ht q y ((Function.update_of_ne hq ..).symm.trans hy))
  | @algo s₁ m print cl hpc hd hm _ =>
    have h₁ : Onward s s₁ := by
      rcases hd with ⟨-, hd⟩ | ⟨-, rfl⟩
      · exact hd.onward
      · exact .refl s₁
    have h₂ : Onward s₁ { s₁ with toMem := m, lastPrint := print, clears := cl } :=
      .of_sameCore hm rfl
    have h₃ := h₁.trans h₂
    rw [permit]
    split_ifs <;> exact ⟨h₃.heap, h₃.cur, h₃.child, h₃.tracked⟩
  | _ => exact ⟨(Onward.refl s).heap, (Onward.refl s).cur, (Onward.refl s).child, id⟩

/-- The request that is fetched waited in the message queue. -/
theorem fetched_mtype (clk : Clk) (s : RRState) :
    ∀ r ∈ (s.fetched clk).requests ++ (s.fetched clk).reqMsgq,
      ∃ r' ∈ s.requests ++ s.reqMsgq, r'.mtype = r.mtype := by
  intro r hr
  rw [fetched] at hr
  split at hr
  · exact ⟨r, hr, rfl⟩
  · rename_i x _
    rw [fetchRequest] at hr
    split at hr
    · exact ⟨r, hr, rfl⟩
    · rename_i req rest hrcv
      have hperm := MsgQueue.perm_of_rcv hrcv
      have hsub : ∀ a ∈ req :: rest, a ∈ s.requests ++ s.reqMsgq := fun a ha =>
        List.mem_append_right _ (hperm.mem_iff.mpr ha)
      rcases List.mem_append.mp hr with hr | hr
      · rcases Queue.mem_enqueue.mp hr with hr | rfl
        · exact ⟨r, List.mem_append_left _ hr, rfl⟩
        · exact ⟨req, hsub req List.mem_cons_self, rfl⟩
      · exact ⟨r, hsub r (List.mem_cons_of_mem _ hr), rfl⟩

/-- The requests that wait after a turn waited before it, up to their ticks. -/
theorem Turn.requests (ht : Turn K P clk s s') :
    ∀ r ∈ s'.requests ++ s'.reqMsgq, ∃ r' ∈ s.requests ++ s.reqMsgq, r'.mtype = r.mtype := by
  intro r hr
  have hself : r ∈ s.requests ++ s.reqMsgq → ∃ r' ∈ s.requests ++ s.reqMsgq, r'.mtype = r.mtype :=
    fun hr => ⟨r, hr, rfl⟩
  cases ht with
  | serve hpc hcur hs =>
    refine fetched_mtype clk s r ?_
    have hmono : ∀ rq, rq ⊆ (s.fetched clk).requests → r ∈ rq ++ (s.fetched clk).reqMsgq →
        r ∈ (s.fetched clk).requests ++ (s.fetched clk).reqMsgq := fun rq hrq hr => by
      rcases List.mem_append.mp hr with hr | hr
      · exact List.mem_append_left _ (hrq hr)
      · exact List.mem_append_right _ hr
    cases hs with
    | keep hd hm hrq => exact hmono _ hrq hr
    | block hx hd hf hm hrq => exact hmono _ hrq hr
    | switch hp hx hd hf hm hrq => exact hmono _ hrq hr
  | firstScan hpc hu =>
    obtain ⟨m, u, b, n, hm, -, rfl⟩ := hu
    exact hself hr
  | lastScan hpc hu =>
    obtain ⟨m, u, b, n, hm, -, rfl⟩ := hu
    exact hself hr
  | @algo s₁ m print cl hpc hd hm _ =>
    have h₁ : s₁.requests = s.requests ∧ s₁.reqMsgq = s.reqMsgq := by
      rcases hd with ⟨-, hd⟩ | ⟨-, rfl⟩
      · obtain ⟨m, r, b, n, t, u, k, rt, log, ch, c, rfl⟩ := hd.frame
        exact ⟨rfl, rfl⟩
      · exact ⟨rfl, rfl⟩
    refine hself ?_
    rw [← h₁.1, ← h₁.2]
    rw [permit] at hr
    split_ifs at hr <;> exact hr
  | _ => exact hself hr

/-- The processes that are running or have a child have been started, the latter with the
id their child has. -/
structure Started (s : RRState) : Prop where
  running : ∀ p, s.currProcess = some p → ∃ i, Begun s.toMem p i
  child : ∀ p c, s.child p = some c → Begun s.toMem p c.id
  tracked : Tracked s.toMem

theorem Onward.started (h : Onward s s') (hs : Started s) : Started s' where
  running p hp := by
    rcases h.cur hp with hp | hb
    · obtain ⟨i, hb⟩ := hs.running p hp
      exact ⟨i, h.begun hb⟩
    · exact hb
  child p c hc := by
    rcases h.child hc with ⟨c₀, hc₀, hid⟩ | hb
    · exact hid ▸ h.begun (hs.child p c₀ hc₀)
    · exact hb
  tracked := h.tracked hs.tracked

/-- A move of a child, which keeps its id. -/
theorem Started.child_move (hs : Started s) (hc : s.child p = some c) (hm : t.toMem = s.toMem)
    (ht : t.child = Function.update s.child p (some c')) (hid : c'.id = c.id) : Started t where
  running q hq := hm ▸ hs.running q (hm ▸ hq)
  child q d hd := by
    rw [ht] at hd
    by_cases hq : q = p
    · subst hq
      rw [Function.update_self] at hd
      obtain rfl := Option.some.inj hd
      rw [hm, hid]
      exact hs.child q c hc
    · rw [Function.update_of_ne hq] at hd
      exact hm ▸ hs.child q d hd
  tracked := hm ▸ hs.tracked

theorem Turn.started (ht : Turn K P clk s s') (hfresh : s.toMem.Fresh) (hs : Started s) :
    Started s' := by
  by_cases hpc : s.pc = .reap
  · cases ht with
    | @reap m p x _ hcur hx hwait hr =>
      refine ⟨fun q hq => ?_, fun q c hc => ?_, fun q y hy => ?_⟩
      · have hnone : m.currProcess = some q := hq
        rw [hr.cur] at hnone
        exact nomatch hnone
      · have hqp : q ≠ p := by
          rintro rfl
          exact nomatch (Function.update_self q none s.child).symm.trans hc
        obtain ⟨y, hy, hid, hpid⟩ := hs.child q c ((Function.update_of_ne hqp ..).symm.trans hc)
        exact ⟨y, (hr.heap_of_ne hqp).trans hy, hid, hpid⟩
      · have hy : m.heap q = some y := hy
        have hqp : q ≠ p := by
          rintro rfl
          rw [hr.heap, Function.update_self] at hy
          exact nomatch hy
        show q ∈ m.currentPCBs
        rw [hr.pcbs]
        exact (List.mem_erase_of_ne hqp).mpr (hs.tracked q y ((hr.heap_of_ne hqp).symm.trans hy))
    | _ hpc' => exact nomatch hpc.symm.trans hpc'
  · exact (ht.onward hpc hfresh).started hs

end RRState

namespace World

open RRState Mem

variable {P : Params} {w w' : World} {e : Event}

/-- **Every request that waits is one of a process that has been started**, or of none
that is still to come. -/
structure Asked (w : World) : Prop extends Started w.rr where
  live : ∀ r ∈ w.rr.requests ++ w.rr.reqMsgq,
    ForallHeap (fun _ x => x.id = r.mtype → x.pid ≠ -1) w.rr.toMem
  old : ∀ r ∈ w.rr.requests ++ w.rr.reqMsgq, ∀ d ∈ w.pending, d.id ≠ r.mtype

/-- The messages of a child bear its id. -/
theorem requestOf_mtype {c : Child} {r : Request} (h : r ∈ (requestOf c).1) : r.mtype = c.id := by
  rw [requestOf] at h
  split at h
  · exact nomatch h
  · split_ifs at h
    · obtain rfl := List.mem_singleton.mp h
      rfl
    · exact nomatch h
    · exact nomatch h

/-- A step of the scheduler. -/
theorem Asked.turn {clk : Clk} {s : RRState} {t : ℤ} (h : Asked w)
    (hi : Inv (fun _ => True) (fun _ => True) w) (ht : Turn (fun _ => True) P clk w.rr s)
    (hsub : pending { w with rr := s, clock := t } ⊆ w.pending) :
    Asked { w with rr := s, clock := t } where
  toStarted := ht.started hi.held.fresh h.toStarted
  live r hr := by
    obtain ⟨r', hr', hid⟩ := ht.requests r hr
    rw [← hid]
    refine ht.forall_heap (fun p x y hc hx he => ?_) (fun p x _ hx => hx)
      (fun _ p x hx he => ?_) (fun d hrcv h1 he => ?_) (h.live r' hr')
    · have hf := core_eq hc
      exact hf.2.2.2.2.2.2.2.1 ▸ hx (hf.1 ▸ he)
    · exact (dispatched_pid clk p x).2
    · -- a process that is received has an id nobody has asked under
      have hp := pending_perm { w with rr := s, clock := t } hrcv rfl rfl
      rw [if_pos h1] at hp
      exact absurd he (h.old r' hr' d (hp.mem_iff.mpr (List.mem_append_left _
        (List.mem_singleton.mpr rfl))))
  old r hr d hd := by
    obtain ⟨r', hr', hid⟩ := ht.requests r hr
    exact hid ▸ h.old r' hr' d (hsub hd)

/-- **Every step keeps the requests with the processes that have been started.** -/
theorem Step.asked (hst : Step P e w w') (hi : Inv (fun _ => True) (fun _ => True) w)
    (h : Asked w) : Asked w' := by
  have hsub := hst.pending_subset hi
  cases hst with
  | sched _ hs => exact h.turn hi (hi.turn hs) hsub
  | @child _ p s hs =>
    obtain ⟨c, hc, -, -, ⟨-, rfl⟩ | ⟨-, -, rfl⟩⟩ := childStep_cases hs
    · exact ⟨h.toStarted.child_move hc rfl rfl rfl, h.live, fun r hr d hd => h.old r hr d (hsub hd)⟩
    · have hb := h.child p c hc
      -- a new request bears the id of the process of the child
      have hnew : ∀ r ∈ w.rr.requests ++ (w.rr.reqMsgq ++ (requestOf c).1),
          r ∈ w.rr.requests ++ w.rr.reqMsgq ∨ r.mtype = c.id := fun r hr => by
        rw [← List.append_assoc] at hr
        exact (List.mem_append.mp hr).imp_right requestOf_mtype
      refine ⟨h.toStarted.child_move hc rfl rfl rfl, fun r hr q x hx he => ?_, fun r hr d hd => ?_⟩
      · rcases hnew r hr with hr | hid
        · exact h.live r hr q x hx he
        · obtain ⟨y, hy, hyid, hpid⟩ := hb
          obtain rfl : q = p := hi.held.wf.ids ⟨h.tracked q x hx, hx⟩ ⟨h.tracked p y hy, hy⟩
            ((he.trans hid).trans hyid.symm)
          obtain rfl := Option.some.inj (hx.symm.trans hy)
          exact hpid
      · rcases hnew r hr with hr | hid
        · exact h.old r hr d (hsub hd)
        · obtain ⟨y, hy, hyid, -⟩ := hb
          exact fun he => hi.new d (hsub hd) p y hy (hyid.trans (hid.symm.trans he.symm))
  | _ => exact ⟨⟨h.running, h.child, h.tracked⟩, h.live, fun r hr d hd => h.old r hr d (hsub hd)⟩

theorem reachable_asked (h : (system P).Reachable w) : Asked w := by
  refine h.invariant_of (J := Inv (fun _ => True) fun _ => True) (P := Asked)
    (fun _ => reachable_inv) ?_ ?_
  · rintro w ⟨l, t, -, -, ht, rfl⟩
    exact ⟨⟨(fun p hp => nomatch hp), (fun p c hc => nomatch hc), fun p x hx => nomatch hx⟩,
      List.forall_mem_nil _, List.forall_mem_nil _⟩
  · rintro w w' hi h ⟨e, hst⟩
    exact hst.asked hi h

end World

end CpuScheduler
