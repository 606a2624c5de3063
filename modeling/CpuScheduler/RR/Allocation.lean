import CpuScheduler.Mmu.Allocation
import CpuScheduler.RR.Requests

/-!
# Runs in which no allocation fails

`fault_handler` says nothing when it finds no frame, and nobody asks. Here the runs are
followed in which there always is one: two frames that are neither page tables nor
reserved whenever a process is dispatched for the first time, and one for each demand
fault, free if the page is not one of the first 64
(`CpuScheduler.World.Spacious`). In these runs all is as intended
(`CpuScheduler.World.reachable_allocates`): started processes hold page tables, and a
blocked process has the page it was blocked for (`CpuScheduler.World.Awaits`) in a frame
that is reserved for it until it is ready again.

The condition fails in the run in which 32 processes are received at once: the last of
them gets the last frame for its page table, and its page 0 is not loaded.
-/

namespace CpuScheduler

namespace RRState

open Fallible Mem

variable {K : Mem → Prop} {P : Params} {clk : Clk} {s s' : RRState} {p q : Ptr} {x y : PCB}
  {v u : ℤ} {L : Ptr → ℤ → Prop}

/-- A process for which a page is demanded is not blocked. -/
theorem Demands.not_blocked (hd : Demands clk (s.fetched clk) p v)
    (h : s.Custody [] s.currProcess.toList) :
    p ∉ s.blockQueue ∧ ∃ x, s.toMem.Live p x := by
  obtain ⟨rq, mq, hf⟩ := fetched_eq clk s
  rw [hf] at hd
  obtain ⟨-, -, -, -, -, -, -, hplace⟩ := hd
  have hstate : ∃ st, st ≠ ProcState.B ∧ InState s.toMem st p := by
    rcases hplace with hcur | hready
    · exact ⟨.R, nofun, h.running p (Option.mem_toList.mpr hcur)⟩
    · exact ⟨.W, nofun, h.ready p hready⟩
  obtain ⟨st, hne, x, hx, hst⟩ := hstate
  refine ⟨fun hB => ?_, x, ?_, hx⟩
  · obtain ⟨x', hx', hst'⟩ := h.blocked p hB
    obtain rfl := Option.some.inj (hx.symm.trans hx')
    exact hne (hst.symm.trans hst')
  · rcases hplace with hcur | hready
    · exact h.mem_iff.mpr (Or.inr (Or.inl (Option.mem_toList.mpr hcur)))
    · exact h.mem_iff.mpr (Or.inr (Or.inr (Or.inl hready)))

/-- What is demanded is demanded once. -/
theorem Demands.eq (hd : Demands clk s p v) (hd' : Demands clk s q u) : p = q ∧ v = u := by
  obtain ⟨req, rest, hreq, howner, hpage, -⟩ := id hd'
  obtain ⟨hp, hv, -⟩ := hd.unique hreq howner
  exact ⟨hp, hv.trans hpage.symm⟩

/-- **A page that is demanded is loaded**, and its process waits for it. -/
theorem Serves.loads (hs : Serves clk s s') (h : s.toMem.Allocated L)
    (hp : s.toMem.Live p x) (hd : Demands clk s p v)
    (henough : EnoughFor L .demand p v s.RAM) :
    p ∈ s'.blockQueue ∧ ∃ z, s'.toMem.Live p z ∧ z.pendingPage = v ∧ s'.toMem.Backed z := by
  obtain ⟨req, rest, -, -, -, hmiss, -⟩ := id hd
  obtain ⟨f, e, htab, he, hinv, -⟩ := h.agree.toPlaced.missed hp hmiss
  cases hs with
  | keep hnone hm hrq => exact absurd hd (hnone p v)
  | @block m rq ck r q y u raw op hy hd' hf hm hrq =>
    obtain ⟨rfl, rfl⟩ := hd.eq hd'
    obtain rfl := Option.some.inj (hy.symm.trans hp.2)
    have hown : y.Own { y with state := y.state } := ⟨rfl, rfl, rfl, rfl, rfl, id, Or.inl, rfl⟩
    obtain ⟨-, z, hz, hpage, hb⟩ := h.demand (y := { y with state := .B }) hp htab he hinv hown
      henough hf
    exact ⟨Queue.mem_enqueue.mpr (Or.inr rfl), z, hz, hpage, hb⟩
  | @switch m rq ck q y u raw op hcur hy hd' hf hm hrq =>
    obtain ⟨rfl, rfl⟩ := hd.eq hd'
    obtain rfl := Option.some.inj (hy.symm.trans hp.2)
    have hown : y.Own { s.blockedPcb clk y with state := y.state } :=
      ⟨rfl, rfl, rfl, rfl, rfl, id, Or.inl, rfl⟩
    obtain ⟨-, z, hz, hpage, hb⟩ := h.demand hp htab he hinv hown henough hf
    exact ⟨Queue.mem_enqueue.mpr (Or.inr rfl), z, hz, hpage,
      hb.congr rfl rfl rfl fun _ _ _ => ⟨rfl, rfl⟩⟩

/-! ### First dispatches -/

/-- Dispatching the process `p`, which is new, in the state `s` leaves the memory `m'`: the
process gets its table and page 0 when it has been made the running one, and is then marked as
started. -/
def StartsIn (clk : Clk) (s : RRState) (p : Ptr) (m' : Mem) : Prop :=
  ∃ x m z, s.heap p = some x ∧ Launched clk (s.chosen clk p x) m p (x.stamped clk) ∧
    m.heap p = some z ∧ m' = m.withPcb p { z.started p with state := .R }

/-- Only the first ready process is started. -/
theorem Dispatches.front (hd : Dispatches P clk s s') (hx : s.heap p = some x)
    (hpid : x.pid = -1) (hy : s'.heap p = some y) (hne : y.pid ≠ -1) :
    s.readyQueue.head? = some p := by
  cases hd with
  | @intro q z m rest line hq hz hstart hm =>
    rw [hq, List.head?_cons]
    refine congrArg some ?_
    by_contra hqp
    have hx' : (({ s.toMem with currProcess := some q } : Mem).withPcb q
        (z.dispatched clk q)).heap p = some x := (withPcb_heap_of_ne (Ne.symm hqp) _).trans hx
    obtain ⟨u, hu, hcore⟩ := hm.pcb hy
    obtain rfl := Option.some.inj (hu.symm.trans hx')
    exact hne ((core_eq hcore).2.2.2.2.2.2.2.1.trans hpid)

/-- **A process that is dispatched for the first time gets its frames.** -/
theorem Dispatches.launches (hd : Dispatches P clk s s') (h : s.toMem.Allocated L)
    (hx : s.toMem.Live p x) (hpid : x.pid = -1) (hy : s'.heap p = some y) (hne : y.pid ≠ -1)
    (henough : Enough .pageTable p 0 s.RAM) :
    s'.currProcess = some p ∧ s.StartsIn clk p s'.toMem ∧
      ∃ f j : Fin 32, y.frameIndex = f ∧ s'.toMem.entry y 0 =
        some { R := true, M := false, frameAddress := j, valid := true } := by
  have hfront := hd.front hx.2 hpid hy hne
  cases hd with
  | @intro q z m rest line hq hz hstart hm =>
    rw [hq, List.head?_cons] at hfront
    obtain rfl := Option.some.inj hfront
    obtain rfl := Option.some.inj (hz.symm.trans hx.2)
    obtain ⟨m₀, u, hinit, hu, rfl⟩ := hstart hpid
    -- the memory in which the process is initialized
    have hchosen : (s.chosen clk q z).Allocated L := by
      have hk := kept_allocated L
      refine hk.write (hk.choose h ?_) ⟨hx.1, hx.2⟩ (stamped_own clk z)
      rintro r ⟨⟩
      exact hx.1
    have hlive : (s.chosen clk q z).Live q (z.stamped clk) := ⟨hx.1, withPcb_heap_self ..⟩
    have hidx := (hchosen.started hlive).mp ((stamped_own clk z).pid.trans hpid)
    obtain ⟨m₁, hm₁, hl⟩ := hchosen.agree.toPlaced.launch hlive hidx henough clk
    obtain rfl := Except.ok.inj (hinit.symm.trans hm₁)
    obtain ⟨u', f, j, hu', hf, hent⟩ := hl.resident
    obtain rfl := Option.some.inj (hu.symm.trans hu')
    refine ⟨hm.cur, ⟨z, m₀, u, hz, hl, hu, rfl⟩, f, j, ?_, ?_⟩
    · obtain rfl := Option.some.inj ((withPcb_heap_self ..).symm.trans hy)
      exact hf
    · obtain rfl := Option.some.inj ((withPcb_heap_self ..).symm.trans hy)
      exact hent

theorem Decides.launches (hd : Decides (Allocated L) P clk s s')
    (h : Held (Allocated L) s [] s.currProcess.toList) (hx : s.toMem.Live p x)
    (hpid : x.pid = -1) (hy : s'.heap p = some y) (hne : y.pid ≠ -1)
    (henough : ∀ s₁ r, Launches clk s s₁ r → Enough .pageTable r 0 s₁.RAM) :
    s'.currProcess = some p ∧ (∃ s₁, Launches clk s s₁ p ∧ s₁.StartsIn clk p s'.toMem) ∧
      ∃ f j : Fin 32, y.frameIndex = f ∧ s'.toMem.entry y 0 =
        some { R := true, M := false, frameAddress := j, valid := true } := by
  have hsame : s'.heap = s.heap → False := fun hh => by
    rw [hh, hx.2] at hy
    exact hne (Option.some.inj hy ▸ hpid)
  cases hd with
  | stay => exact (hsame rfl).elim
  | extend => exact (hsame rfl).elim
  | @preempt q z s₁ _ hp hz hdue hwait hu hheld hbefore hd =>
    -- stopping and unblocking do not start the process
    obtain ⟨x₁, hx₁, hpid₁⟩ : ∃ x₁, s₁.toMem.Live p x₁ ∧ x₁.pid = -1 := by
      obtain ⟨m, u, b, n, hm, -, rfl⟩ := hu
      obtain ⟨x', hx', hpid'⟩ : ∃ x', (s.stopped clk q z).toMem.Live p x' ∧ x'.pid = -1 := by
        by_cases hpq : p = q
        · subst hpq
          obtain rfl := Option.some.inj (hz.symm.trans hx.2)
          exact ⟨_, ⟨hx.1, withPcb_heap_self ..⟩, hpid⟩
        · exact ⟨x, ⟨hx.1, (withPcb_heap_of_ne hpq _).trans hx.2⟩, hpid⟩
      obtain ⟨x₁, hx₁, hcore⟩ := hm.symm.pcb hx'.2
      exact ⟨x₁, ⟨hm.pcbs ▸ hx'.1, hx₁⟩, (core_eq hcore).2.2.2.2.2.2.2.1.symm.trans hpid'⟩
    have hl : Launches clk s { s₁ with checked := true } p :=
      ⟨hbefore, hd.front hx₁.2 hpid₁ hy hne, ⟨x₁, hx₁.2, hpid₁⟩, fun _ => hdue⟩
    obtain ⟨hcur, hin, hres⟩ := hd.launches (L := L) hheld.mem hx₁ hpid₁ hy hne
      (henough { s₁ with checked := true } p hl)
    exact ⟨hcur, ⟨_, hl, hin⟩, hres⟩
  | @dispatch s₁ hp hd =>
    have hbefore : s.beforeDispatch clk = .ok s := by
      rw [beforeDispatch, hp]
    have hl : Launches clk s s p :=
      ⟨hbefore, hd.front hx.2 hpid hy hne, ⟨x, hx.2, hpid⟩, fun hc => absurd hp hc⟩
    obtain ⟨hcur, hin, hres⟩ := hd.launches h.mem hx hpid hy hne (henough s p hl)
    exact ⟨hcur, ⟨s, hl, hin⟩, hres⟩

/-! ### Who gets blocked, and who is started -/

theorem Decides.blockQueue_subset (hd : Decides K P clk s s') : s'.blockQueue ⊆ s.blockQueue := by
  cases hd with
  | stay => exact List.Subset.refl _
  | extend hp => exact List.Subset.refl _
  | preempt hp hx hdue hwait hu hheld hbefore hd =>
    obtain ⟨m, u, b, n, hm, hb, rfl⟩ := hu
    cases hd
    exact hb
  | dispatch hp hd =>
    cases hd
    exact List.Subset.refl _

/-- **A process is blocked by a demand fault only.** -/
theorem Turn.blocks (ht : Turn K P clk s s') (hp : p ∉ s.blockQueue) (hp' : p ∈ s'.blockQueue) :
    s.pc = .requests ∧ s.currProcess.isSome ∧ ∃ v, Demands clk (s.fetched clk) p v := by
  cases ht with
  | serve hpc hcur hs =>
    refine ⟨hpc, hcur, ?_⟩
    have hq : (s.fetched clk).blockQueue = s.blockQueue := by
      obtain ⟨rq, mq, hf⟩ := fetched_eq clk s
      rw [hf]
    cases hs with
    | keep hd hm hrq => exact absurd (hq ▸ hp') hp
    | block hx hd hf hm hrq =>
      obtain rfl := (Queue.mem_enqueue.mp hp').resolve_left fun h => hp (hq ▸ h)
      exact ⟨_, hd⟩
    | switch hrun hx hd hf hm hrq =>
      obtain rfl := (Queue.mem_enqueue.mp hp').resolve_left fun h => hp (hq ▸ h)
      exact ⟨_, hd⟩
  | firstScan hpc hu =>
    obtain ⟨m, u, b, n, hm, hb, rfl⟩ := hu
    exact absurd (hb hp') hp
  | lastScan hpc hu =>
    obtain ⟨m, u, b, n, hm, hb, rfl⟩ := hu
    exact absurd (hb hp') hp
  | @algo s₁ m print cl hpc hd hm hclear =>
    have hq : (RRState.permit { s₁ with toMem := m, lastPrint := print, clears := cl }).blockQueue =
        s₁.blockQueue := by
      rw [permit]
      split_ifs <;> rfl
    have hp₁ : p ∈ s₁.blockQueue := hq ▸ hp'
    rcases hd with ⟨-, hd⟩ | ⟨-, rfl⟩
    · exact absurd (hd.blockQueue_subset hp₁) hp
    · exact absurd hp₁ hp
  | _ => exact absurd hp' hp

/-- Nobody is started but in the block of `RR_algo`. -/
theorem Turn.pid_eq (ht : Turn K P clk s s') (hpc : s.pc ≠ .algo) (hfresh : s.toMem.Fresh)
    (hx : s.heap p = some x) (hy : s'.heap p = some y) : y.pid = x.pid := by
  have hcore : ∀ {m : Mem}, SameCore s.toMem m → m.heap p = some y → y.pid = x.pid := by
    intro m hm hy
    obtain ⟨u, hu, hc⟩ := hm.pcb hy
    obtain rfl := Option.some.inj (hu.symm.trans hx)
    exact (core_eq hc).2.2.2.2.2.2.2.1
  have hsame : s'.heap p = s.heap p → y.pid = x.pid := fun hh => by
    rw [hh, hx] at hy
    exact congrArg PCB.pid (Option.some.inj hy).symm
  cases ht with
  | serve _ hcur hs =>
    obtain ⟨rq, mq, hf⟩ := fetched_eq clk s
    rw [hf] at hs
    cases hs with
    | keep _ hm _ => exact hcore hm hy
    | block _ _ _ hm _ => exact hcore hm hy
    | @switch m rq ck q z u raw op hp hz hd hfault hm hrq =>
      obtain ⟨v, hv, hc⟩ := hm.pcb hy
      refine (core_eq hc).2.2.2.2.2.2.2.1.trans ?_
      by_cases hpq : p = q
      · subst hpq
        obtain rfl := Option.some.inj (hz.symm.trans hx)
        obtain rfl := Option.some.inj ((withPcb_heap_self ..).symm.trans hv)
        rfl
      · obtain rfl := Option.some.inj (((withPcb_heap_of_ne hpq _).trans hx).symm.trans hv)
        rfl
  | firstScan _ hu =>
    obtain ⟨m, u, b, n, hm, -, rfl⟩ := hu
    exact hcore hm hy
  | lastScan _ hu =>
    obtain ⟨m, u, b, n, hm, -, rfl⟩ := hu
    exact hcore hm hy
  | @reap m q z _ hcur hz hwait hr =>
    have hy : m.heap p = some y := hy
    have hpq : p ≠ q := by
      rintro rfl
      rw [hr.heap, Function.update_self] at hy
      exact nomatch hy
    exact hsame (hr.heap_of_ne hpq)
  | arrive _ _ _ =>
    refine hsame (Function.update_of_ne ?_ ..)
    rintro rfl
    exact nomatch (hfresh s.brk le_rfl).symm.trans hx
  | algo halgo _ _ _ => exact absurd halgo hpc
  | _ => exact hsame rfl

/-- **Whoever is started in a turn gets a page table and its page 0.** -/
theorem Turn.launches (ht : Turn (Allocated L) P clk s s')
    (h : Held (Allocated L) s [] s.currProcess.toList) (hroom : Roomy Enough clk s)
    (hx : s.toMem.Live p x) (hpid : x.pid = -1) (hy : s'.heap p = some y) (hne : y.pid ≠ -1) :
    (∃ s₁ m, Launches clk s s₁ p ∧ s₁.StartsIn clk p m ∧
      (s'.toMem = m ∨ m.clearRecent = .ok s'.toMem)) ∧
      ∃ f : Fin 32, y.frameIndex = f ∧ ∃ e, s'.toMem.entry y 0 = some e ∧ e.valid = true := by
  by_cases hpc : s.pc = .algo
  · cases ht with
    | @algo s₁ m print cl _ hd hm hclear =>
      generalize hs' : RRState.permit { s₁ with
        toMem := m, lastPrint := print, clears := cl } = s' at hy
      have hmem : s'.toMem = m := by
        rw [← hs', permit]
        split_ifs <;> rfl
      have hy : m.heap p = some y := by
        rw [← hmem]
        exact hy
      rw [hmem]
      have hheap : m.heap = s₁.heap ∧ ∀ q u, s₁.toMem.Live q u →
          ∀ v e, s₁.toMem.entry u v = some e → e.valid = true →
          ∃ e', m.entry u v = some e' ∧ e'.valid = true := by
        obtain ⟨hk, rfl | hc⟩ := hclear
        · exact ⟨rfl, fun q u _ v e he hval => ⟨e, he, hval⟩⟩
        · rw [clearRecent_eq hk.agree.toPlaced] at hc
          obtain rfl := Except.ok.inj hc
          refine ⟨rfl, fun q u hu v e he hval => ⟨{ e with R := false }, ?_, hval⟩⟩
          rw [cleared_entry hk.agree.toPlaced hu, he, Option.map_some]
      have hy₁ : s₁.heap p = some y := hheap.1 ▸ hy
      rcases hd with ⟨hpos, hd⟩ | ⟨-, rfl⟩
      · obtain ⟨hcur, ⟨s₂, hl, hin⟩, f, j, hf, he⟩ :=
          hd.launches h hx hpid hy₁ hne (hroom.launch hpc hpos)
        have hlive : s₁.toMem.Live p y := ⟨hclear.1.agree.toPlaced.wf.cur hcur, hy₁⟩
        exact ⟨⟨s₂, _, hl, hin, hclear.2⟩, f, hf, hheap.2 p y hlive 0 _ he rfl⟩
      · obtain rfl := Option.some.inj (hx.2.symm.trans hy₁)
        exact absurd hpid hne
    | _ hpc' => exact absurd (hpc.symm.trans hpc') (by simp)
  · exact absurd ((ht.pid_eq hpc h.fresh hx.2 hy).trans hpid) hne

end RRState

namespace World

open RRState Mem

variable {P : Params} {w w' : World} {e : Event} {clk : Clk} {p : Ptr} {v t : ℤ} {x : PCB}
  {L : Ptr → ℤ → Prop}

/-! ### The condition, and what is waited for -/

/-- **There are frames for what the next step of the scheduler asks for**: for a demand
fault, and for a first dispatch. -/
def Spacious (w : World) : Event → Prop
  | .sched clk _ => Roomy Enough clk w.rr
  | _ => True

/-- The runs in which there always are. -/
def spacious (P : Params) : TransitionSystem World := systemIf P Paged Spacious

/-- A demand fault of the process `p` for page `v`, between `w` and `w'`. -/
structure Faults (P : Params) (w w' : World) (p : Ptr) (v : ℤ) : Prop where
  step : ∃ clk t, Step P (.sched clk t) w w' ∧ Spacious w (.sched clk t) ∧
    Demands clk (w.rr.fetched clk) p v
  requests : w.rr.pc = .requests
  running : w.rr.currProcess.isSome

/-- **The process `p` is blocked, and the page it was blocked for is `v`.** -/
inductive Awaits (P : Params) (p : Ptr) (v : ℤ) : World → Prop
  | fault {w w' : World} (h : (spacious P).Reachable w) (hf : Faults P w w' p v) :
      Awaits P p v w'
  | wait {w w' : World} {e : Event} (h : Awaits P p v w) (hst : Step P e w w')
      (hC : Spacious w e) (hB : p ∈ w'.rr.blockQueue) : Awaits P p v w'

theorem Awaits.reachable (h : Awaits P p v w) : (spacious P).Reachable w := by
  induction h with
  | fault h hf =>
    obtain ⟨clk, t, hst, hC, -⟩ := hf.step
    exact h.step ⟨_, hst, hC⟩
  | wait _ hst hC _ ih => exact ih.step ⟨_, hst, hC⟩

theorem Spacious.roomy (h : Spacious w e) (hL : ∀ clk p v, w.rr.currProcess.isSome →
      Demands clk (w.rr.fetched clk) p v → L p v) :
    ∀ clk t, e = .sched clk t → Roomy (EnoughFor L) clk w.rr := by
  rintro clk t rfl
  exact ⟨fun hpc hcur p v hd => ⟨h.demand hpc hcur p v hd, fun _ => hL clk p v hcur hd⟩,
    fun hpc hpos s₁ r hl => ⟨h.launch hpc hpos s₁ r hl, nofun⟩⟩

/-- **No allocation has failed**, in every state of a run in which there always was
room. -/
theorem reachable_allocated (h : (spacious P).Reachable w) :
    Inv (Allocated fun _ _ => True) Paged w := by
  refine reachable_inv_if (kept_allocated _) (init_allocated _) (fun w clk t hC => ?_) h
  exact Spacious.roomy (e := .sched clk t) hC (fun _ _ _ _ _ => trivial) clk t rfl

theorem reachable_of_spacious (h : (spacious P).Reachable w) : (system P).Reachable w :=
  reachable_mono (fun _ _ => trivial) (reachable_of_if h)

/-- A demand fault loads its page. -/
theorem Faults.loads (hf : Faults P w w' p v) (h : (spacious P).Reachable w) :
    p ∈ w'.rr.blockQueue ∧ ∃ z, w'.rr.toMem.Live p z ∧ z.pendingPage = v ∧
      w'.rr.toMem.Backed z := by
  obtain ⟨clk, t, hst, hC, hd⟩ := hf.step
  have hi := reachable_allocated h
  have hroom := Spacious.roomy hC (L := fun _ _ => True) (fun _ _ _ _ _ => trivial) clk t rfl
  obtain ⟨-, x, hx⟩ := hd.not_blocked hi.held.toCustody
  cases hst with
  | sched _ hphase =>
    have ht := (sched_inv (t := t) (kept_allocated _) hi hroom hphase).2
    have henough := hroom.demand hf.requests hf.running p v hd
    cases ht with
    | serve _ _ hs =>
      obtain ⟨rq, mq, he⟩ := fetched_eq clk w.rr
      rw [he] at hs hd
      exact hs.loads hi.held.mem hx hd henough
    | idle _ hcur =>
      have := hf.running
      rw [hcur] at this
      exact nomatch this
    | _ hpc => exact nomatch hf.requests.symm.trans hpc

/-- **The page a process waits for stays loaded** as long as it waits. -/
theorem Awaits.loaded (h : Awaits P p v w) : p ∈ w.rr.blockQueue ∧
    ∃ z, w.rr.toMem.Live p z ∧ z.pendingPage = v ∧ w.rr.toMem.Backed z := by
  induction h with
  | fault h hf => exact hf.loads h
  | @wait w w' e h hst hC hB ih =>
    obtain ⟨hB₀, z, hz, hpage, hback⟩ := ih
    have hi := reachable_allocated h.reachable
    -- the page of this process does not change while it waits
    let L : Ptr → ℤ → Prop := fun q u => q = p → u = v
    have hL : Allocated L w.rr.toMem := by
      refine ⟨hi.held.mem.agree, hi.held.mem.started,
          fun hx hb => ⟨(hi.held.mem.backed hx hb).1, ?_⟩⟩
      rintro rfl
      obtain rfl := hx.unique hz
      exact hpage
    have hi' : Inv (Allocated L) Paged w' := by
      refine hst.inv (kept_allocated L) ⟨⟨hi.held.toCustody, hL⟩, hi.ids, hi.new, hi.good⟩
        (hC.roomy ?_)
      rintro clk q u - hd rfl
      exact absurd hB₀ (hd.not_blocked hi.held.toCustody).1
    obtain ⟨x, hx, hstate⟩ := hi'.held.blocked p hB
    have hlive : w'.rr.toMem.Live p x := ⟨hi'.held.mem_iff.mpr (Or.inr (Or.inr (Or.inr hB))), hx⟩
    obtain ⟨hb, hv⟩ := hi'.held.mem.backed hlive hstate
    exact ⟨hB, x, hlive, hv rfl, hb⟩

/-- **A blocked process waits for a page it was blocked for.** -/
theorem reachable_awaits (h : (spacious P).Reachable w) :
    ∀ p ∈ w.rr.blockQueue, ∃ v, Awaits P p v w := by
  induction h with
  | init h =>
    obtain ⟨l, t, -, -, -, rfl⟩ := h
    exact List.forall_mem_nil _
  | @step w w' h hst ih =>
    obtain ⟨e, hst, hC⟩ := hst
    intro p hp'
    by_cases hp : p ∈ w.rr.blockQueue
    · obtain ⟨v, hv⟩ := ih p hp
      exact ⟨v, hv.wait hst hC hp'⟩
    · cases hst with
      | @sched _ clk s t hclk hphase =>
        have hi := reachable_inv (reachable_of_spacious h)
        obtain ⟨hpc, hcur, v, hd⟩ := (hi.turn hphase).blocks hp hp'
        exact ⟨v, .fault h ⟨⟨clk, t, .sched hclk hphase, hC, hd⟩, hpc, hcur⟩⟩
      | child hs =>
        obtain ⟨c, -, -, -, ⟨-, rfl⟩ | ⟨-, -, rfl⟩⟩ := childStep_cases hs <;> exact absurd hp' hp
      | _ => exact absurd hp' hp

/-! ### The result -/

/-- **No allocation fails**, up to the state `w` and in its next step. -/
structure Allocates (P : Params) (w : World) : Prop where
  /-- A process that has been started holds a page table, in one of the frames. -/
  table : ∀ {p x}, w.rr.toMem.Live p x → x.pid ≠ -1 → ∃ f : Fin 32, w.rr.toMem.TableAt x f
  /-- A process that is dispatched for the first time gets a page table and page 0 in the memory
  it is dispatched in; the page is loaded when the table is there. -/
  launch : ∀ {clk t w'}, Step P (.sched clk t) w w' → Spacious w (.sched clk t) →
    ∀ {p x y}, w.rr.toMem.Live p x → x.pid = -1 → w'.rr.heap p = some y → y.pid ≠ -1 →
      (∃ s₁ m, Launches clk w.rr s₁ p ∧ s₁.StartsIn clk p m ∧
        (w'.rr.toMem = m ∨ m.clearRecent = .ok w'.rr.toMem)) ∧
      ∃ f : Fin 32, y.frameIndex = f ∧ ∃ e, w'.rr.toMem.entry y 0 = some e ∧ e.valid = true
  /-- A demand fault makes its process wait for the page. -/
  fault : ∀ {w' p v}, Faults P w w' p v → Awaits P p v w'
  waiting : ∀ p ∈ w.rr.blockQueue, ∃ v, Awaits P p v w
  /-- While a process waits, its page is resident in the reserved frame it records. -/
  loaded : ∀ {p v}, Awaits P p v w → ∃ (x : PCB) (f : Fin 32) (e : PTE),
    w.rr.toMem.Live p x ∧ x.pendingPage = v ∧ x.pendingFrame = f ∧
      w.rr.toMem.entry x v = some e ∧ e.valid = true ∧ e.frameAddress = f ∧
      (w.rr.RAM f).reserved = true
  /-- The owner of a request, for which `check` is called, holds a page table. -/
  access : ∀ {clk req rest p x}, (w.rr.fetched clk).requests = req :: rest →
    w.rr.getProcess req.mtype = .ok (some p) → w.rr.heap p = some x →
      ∃ f : Fin 32, x.frameIndex = f
  /-- So does the running process, for which `freePageTable` is called. -/
  finish : ∀ {p x}, w.rr.currProcess = some p → w.rr.heap p = some x →
    ∃ f : Fin 32, x.frameIndex = f

/-- **In every run in which there always is room, no allocation fails.** -/
theorem reachable_allocates (h : (spacious P).Reachable w) : Allocates P w := by
  have hi := reachable_allocated h
  have hsys := reachable_of_spacious h
  have hask := reachable_asked hsys
  have htable : ∀ {p x}, w.rr.toMem.Live p x → x.pid ≠ -1 →
      ∃ f : Fin 32, w.rr.toMem.TableAt x f := by
    intro p x hx hpid
    have hidx : x.frameIndex ≠ -1 := fun hc => hpid ((hi.held.mem.started hx).mpr hc)
    obtain ⟨f, -, hf⟩ := hi.held.mem.agree.tableAt hx hidx
    exact ⟨f, hf⟩
  refine ⟨htable, ?_, fun hf => .fault h hf, reachable_awaits h, fun ha => ?_, ?_, ?_⟩
  · intro clk t w' hst hC p x y hx hpid hy hne
    have hroom := Spacious.roomy hC (L := fun _ _ => True) (fun _ _ _ _ _ => trivial) clk t rfl
    cases hst with
    | sched _ hphase =>
      exact (sched_inv (t := t) (kept_allocated _) hi hroom hphase).2.launches hi.held hC hx hpid
        hy hne
  · obtain ⟨-, z, hz, rfl, hb⟩ := ha.loaded
    obtain ⟨f, e, hf, he, hval, hfa, hres⟩ := hi.held.mem.resident hz hb
    exact ⟨z, f, e, hz, rfl, hf, he, hval, hfa, hres⟩
  · intro clk req rest p x hreq howner hx
    obtain ⟨r, hr, hid⟩ := fetched_mtype clk w.rr req
      (List.mem_append_left _ (hreq ▸ List.mem_cons_self))
    rcases getProcess_cases hi.held.wf req.mtype with ⟨q, z, hq, hz, hzid⟩ | ⟨hnone, -⟩
    · obtain rfl := Option.some.inj (Except.ok.inj (howner.symm.trans hq))
      obtain ⟨f, hf⟩ := htable hz (hask.live r hr p z hz.2 (hzid.trans hid.symm))
      obtain rfl := Option.some.inj (hx.symm.trans hz.2)
      exact ⟨f, hf.index⟩
    · exact nomatch howner.symm.trans hnone
  · intro p x hcur hx
    obtain ⟨i, z, hz, -, hpid⟩ := hask.running p hcur
    obtain rfl := Option.some.inj (hx.symm.trans hz)
    obtain ⟨f, hf⟩ := htable ⟨hi.held.wf.cur hcur, hx⟩ hpid
    exact ⟨f, hf.index⟩

/-- The last two frames have never been used. -/
def LastFree (s : RRState) : Prop := s.RAM 30 = Frame.zero ∧ s.RAM 31 = Frame.zero

instance (s : RRState) : Decidable (LastFree s) := inferInstanceAs (Decidable (_ ∧ _))

/-- The check of an explicit run: the last two frames are free whenever a frame is taken. -/
def lastFreeCheck (w : World) : Move → Bool
  | .sched a b =>
    (w.rr.pc ≠ .requests || LastFree w.rr) && (w.rr.pc ≠ .algo ||
      match w.rr.beforeDispatch (readings a b) with
      | .ok s => LastFree s
      | .error _ => true)
  | _ => true

theorem spacious_of_check {mv : Move} (h : lastFreeCheck w mv = true) : Spacious w mv.event := by
  cases mv with
  | sched a b =>
    simp only [lastFreeCheck, Bool.and_eq_true, Bool.or_eq_true, decide_eq_true_eq] at h
    obtain ⟨hreq, halgo⟩ := h
    refine ⟨fun hpc _ p v _ => Or.inl ⟨30, ?_⟩, fun hpc _ s₁ r hl => ?_⟩
    · rw [(hreq.resolve_left (not_not_intro hpc)).1]
      rfl
    · have hfree := halgo.resolve_left (not_not_intro hpc)
      have hbefore : w.rr.beforeDispatch (readings a b) = .ok s₁ := hl.before
      rw [hbefore] at hfree
      obtain ⟨h30, h31⟩ := of_decide_eq_true hfree
      refine ⟨30, 31, by decide, ?_, ?_⟩
      · rw [h30]
        exact ⟨rfl, rfl⟩
      · rw [h31]
        exact ⟨rfl, rfl⟩
  | _ => exact trivial

/-- Three processes have been dispatched, and one of them waits for its page 1. -/
theorem reachable_allocates_preempted :
    ∃ w, playIf threeParams lastFreeCheck (start threeAtOnce 1) preemptedRun = some w ∧
      w.rr.currProcess = some 2 ∧ w.rr.readyQueue = [1] ∧ w.rr.blockQueue = [0] ∧
      Allocates threeParams w := by
  have hrun : (playIf threeParams lastFreeCheck (start threeAtOnce 1) preemptedRun).map
      (fun w => (w.rr.currProcess, w.rr.readyQueue, w.rr.blockQueue)) =
        some (some 2, [1], [0]) := by
    decide +kernel
  obtain ⟨w, hw, he⟩ := Option.map_eq_some_iff.mp hrun
  simp only [Prod.mk.injEq] at he
  obtain ⟨hcur, hready, hblock⟩ := he
  have hstart : (spacious threeParams).Reachable (start threeAtOnce 1) :=
    .init ⟨_, 1, workload_threeAtOnce, by decide, by decide, rfl⟩
  exact ⟨w, hw, hcur, hready, hblock, reachable_allocates
    (playIf_reachable (fun _ _ _ hc => spacious_of_check hc) hstart hw)⟩

/-! ### A crowd -/

/-- 32 processes with one page each that arrive together. -/
def crowd : List ProcessData :=
  (List.range 32).map fun i => { soleProcess 1 with id := (i : ℤ) + 1 }

/-- A turn at the tick `t` in which the running process is preempted. -/
def preemptingTurn (t : ℤ) : List Move :=
  List.replicate 5 (.sched t t) ++ [.sched t (t + 1), .sched (t + 1) (t + 1)]

/-- They are received at tick 1, and one after the other is dispatched with a quantum of 1;
the run stops where the last of them is about to be dispatched. -/
def crowdRun : List Move := List.flatten
  [[.observe 1], List.replicate 32 .send, [.sync, .last], List.replicate 40 (.sched 1 1),
    List.replicate 6 (.sched 2 2), [.sched 2 3, .sched 3 3],
    (List.range 29).flatMap fun i => preemptingTurn (2 * (i : ℤ) + 4),
    List.replicate 5 (.sched 62 62)]

theorem workload_crowd : Workload crowd where
  mtype := by decide +kernel
  runtime := by decide +kernel
  ids := by decide +kernel

/-- **With 32 processes at once**, the last one gets a page table and no page 0. -/
theorem not_allocates_crowd :
    ¬∀ (P : Params) (w w' : World) (e : Event), (systemOn P Paged).Reachable w → Step P e w w' →
      ∀ p x y, w.rr.heap p = some x → x.pid = -1 → w'.rr.heap p = some y → y.pid ≠ -1 →
        ∃ e, w'.rr.toMem.entry y 0 = some e ∧ e.valid = true := by
  intro hall
  have hrun : (playAll (quietParams 1) (start crowd 1) crowdRun).bind (fun w =>
      ((w.play (quietParams 1) (.sched 62 63)).bind fun w' => (w'.rr.heap 31).map fun y =>
        (((w.rr.heap 31).map PCB.pid), y.pid, (w'.rr.toMem.entry y 0).map PTE.valid))) =
        some (some (-1), 32, some false) := by
    decide +kernel
  obtain ⟨w, hw, hrun⟩ := Option.bind_eq_some_iff.mp hrun
  obtain ⟨w', hw', hrun⟩ := Option.bind_eq_some_iff.mp hrun
  obtain ⟨y, hy, he⟩ := Option.map_eq_some_iff.mp hrun
  simp only [Prod.mk.injEq] at he
  obtain ⟨hpid, hne, hvalid⟩ := he
  obtain ⟨x, hx, hpid⟩ := Option.map_eq_some_iff.mp hpid
  have hreach : (systemOn (quietParams 1) Paged).Reachable w :=
    playAll_reachable (.init ⟨crowd, 1, workload_crowd, by decide +kernel, by decide, rfl⟩) hw
  obtain ⟨e, he, hval⟩ := hall _ w w' _ hreach (play_step hw') 31 x y hx hpid hy (by omega)
  rw [he, Option.map_some, hval] at hvalid
  exact nomatch hvalid

end World

end CpuScheduler
