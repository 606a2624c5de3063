import CpuScheduler.RR.Requests

/-!
# Whose signal is pending

One flag, `processFinishedSignal`, tells the scheduler that a child is done, and
`handleFinishedProcesses` takes it to be the child of the process that is running. Two
conditions are followed through the runs here. Before a turn begins, the children have
done what they can do (`CpuScheduler.World.Prompt`); and a running process that is
blocked for a page has something left to do (`CpuScheduler.World.InTime`). Then every
process that is not running has no child or a stopped one
(`CpuScheduler.RRState.Parked`), the permits are used up before the scheduler looks at
the flag (`CpuScheduler.RRState.Permitted`), and the flag is the one of the running
process (`CpuScheduler.World.reachable_attributed`).

Without the second condition the flag outlives its process: a process that misses a page
in its last tick is blocked with its signal pending, and the next process to run is
taken for the finished one (`CpuScheduler.World.not_attributed_lastTick`).
-/

namespace CpuScheduler

namespace RRState

open Fallible Mem

variable {K : Mem → Prop} {P : Params} {clk : Clk} {s s' : RRState} {p q : Ptr} {x y : PCB}
  {m m' : Mem} {c : Child} {ch ch' : Ptr → Option Child} {o : Option Ptr}

/-! ### The children of the others -/

/-- A process that is not running has no child yet, or one that is stopped and has
something left to do. -/
inductive Parked (ch : Ptr → Option Child) (q : Ptr) (x : PCB) : Prop
  | fresh (hpid : x.pid = -1) (hchild : ch q = none) (hrem : 0 < x.remainingTime)
  | halted {c : Child} (hpid : x.pid = (q : ℤ) + 1) (hchild : ch q = some c)
      (hstop : c.stopped = true) (hex : c.exited = false) (hpos : 0 < c.remainingtime)
      (hrem : x.remainingTime = c.remainingtime)

theorem Parked.congr (h : Parked ch q x) (hch : ch' q = ch q) (hc : y.core = x.core) :
    Parked ch' q y := by
  have hf := core_eq hc
  have hrem : y.remainingTime = x.remainingTime := hf.2.2.2.1
  have hpid : y.pid = x.pid := hf.2.2.2.2.2.2.2.1
  cases h with
  | fresh hp hchild hpos => exact .fresh (hpid.trans hp) (hch.trans hchild) (hrem ▸ hpos)
  | halted hp hchild hstop hex hpos hr =>
    exact .halted (hpid.trans hp) (hch.trans hchild) hstop hex hpos (hrem.trans hr)

/-- A parked child does not move. -/
theorem Parked.childStep (h : Parked s.child q x) : s.childStep q = none := by
  rw [RRState.childStep]
  cases h with
  | fresh _ hchild _ => rw [hchild]
  | halted _ hchild hstop _ _ _ =>
    rw [hchild]
    exact if_pos (Or.inl hstop)

/-- All processes but `o` are parked. -/
def Shelved (o : Option Ptr) (m : Mem) (ch : Ptr → Option Child) : Prop :=
  ∀ q x, m.heap q = some x → o ≠ some q → Parked ch q x

theorem Shelved.sameCore (h : Shelved o m ch) (hm : SameCore m m') : Shelved o m' ch := by
  intro q y hy hq
  obtain ⟨x, hx, hc⟩ := hm.pcb hy
  exact (h q x hx hq).congr rfl hc

/-- A process is taken off the processor. -/
theorem Shelved.halt (h : Shelved (some p) m ch) (hpid : y.pid = (p : ℤ) + 1)
    (hc : ch p = some c) (hex : c.exited = false) (hpos : 0 < c.remainingtime)
    (hrem : y.remainingTime = c.remainingtime) :
    Shelved none (m.withPcb p y)
      (Function.update ch p ((ch p).map fun c => { c with stopped := true })) := by
  intro q z hz _
  by_cases hq : q = p
  · subst hq
    obtain rfl := Option.some.inj ((withPcb_heap_self ..).symm.trans hz)
    refine .halted (c := { c with stopped := true }) hpid ?_ rfl hex hpos hrem
    rw [Function.update_self, hc, Option.map_some]
  · have hother := h q z ((withPcb_heap_of_ne hq _).symm.trans hz)
    exact (hother fun he => hq (Option.some.inj he).symm).congr
      (Function.update_of_ne hq ..) rfl

/-- A child that cannot move is stopped, is done, or waits for a permit. -/
theorem stuck (hc : s.child p = some c) (hgo : c.stopped = false) (h : s.childStep p = none) :
    c.exited = true ∨ (0 < c.remainingtime ∧ s.sem = 0) := by
  rw [RRState.childStep, hc] at h
  dsimp only at h
  split_ifs at h with hex hpos hsem
  · exact Or.inl (hex.resolve_left (by rw [hgo]; simp))
  · exact Or.inr ⟨not_le.mp hpos, hsem⟩

/-! ### The child of the running process -/

/-- What the cut says about the permit: it is given at the end of a turn, it has been
taken when the next turn begins, and a process that is done has been let go of when the
gate is reached. -/
def Permitted (pc : Pc) (sem : ℕ) (c : Child) : Prop :=
  match pc with
  | .top | .last => sem = 1 → 0 < c.remainingtime
  | .requests | .blockEnd | .finish => sem = 0 ∧ (c.remainingtime = 0 → c.exited = true)
  | .reap => sem = 0 ∧ c.exited = true
  | .gate | .receive | .algo => sem = 0 ∧ 0 < c.remainingtime
  | .exited => True

/-- The running process `p` and its child `c`. -/
structure Active (s : RRState) (p : Ptr) (c : Child) : Prop where
  pid : ∃ x, s.heap p = some x ∧ x.pid = (p : ℤ) + 1
  child : s.child p = some c
  going : c.stopped = false
  shared : s.shmRT = c.remainingtime
  nonneg : 0 ≤ c.remainingtime
  exited : c.exited = true → c.remainingtime = 0
  one : s.sem ≤ 1
  permit : Permitted s.pc s.sem c
  flag : s.processFinishedSignal = (c.exited && s.pc != .reap)
  raised : s.raisedBy = if s.processFinishedSignal then [p] else []

/-- **The scheduler and its children are in step.** -/
structure Paced (s : RRState) : Prop where
  shelved : Shelved s.currProcess s.toMem s.child
  active : ∀ p, s.currProcess = some p → ∃ c, Active s p c
  idle : s.currProcess = none → s.sem = 0 ∧ s.processFinishedSignal = false ∧ s.raisedBy = []

/-- **The signal that is pending is the one of the running process**, which has nothing
left to do. -/
def Attributed (s : RRState) : Prop :=
  s.processFinishedSignal = true → ∃ p c, s.currProcess = some p ∧ s.raisedBy = [p] ∧
    s.child p = some c ∧ c.remainingtime = 0 ∧ s.shmRT = 0

theorem Paced.attributed (h : Paced s) : Attributed s := by
  intro hsig
  cases hp : s.currProcess with
  | none => exact absurd (h.idle hp).2.1 (by rw [hsig]; exact nofun)
  | some p =>
    obtain ⟨c, hc⟩ := h.active p hp
    have hex : c.exited = true := by
      have hf := hc.flag
      rw [hsig] at hf
      exact (Bool.and_eq_true_iff.mp hf.symm).1
    refine ⟨p, c, rfl, ?_, hc.child, hc.exited hex, hc.shared.trans (hc.exited hex)⟩
    rw [hc.raised, hsig]
    rfl

/-- The scheduler goes on to another cut, and the children see nothing of it. -/
theorem Paced.goto (h : Paced s) (hm : SameCore s.toMem s'.toMem) (hch : s'.child = s.child)
    (hrt : s'.shmRT = s.shmRT) (hsem : s'.sem = s.sem)
    (hsig : s'.processFinishedSignal = s.processFinishedSignal)
    (hraised : s'.raisedBy = s.raisedBy) (hpc : s.pc ≠ .reap) (hpc' : s'.pc ≠ .reap)
    (hperm : ∀ p c, s.currProcess = some p → Active s p c → Permitted s'.pc s.sem c) :
    Paced s' where
  shelved := by
    rw [hm.cur, hch]
    exact h.shelved.sameCore hm
  active p hp := by
    rw [hm.cur] at hp
    obtain ⟨c, hc⟩ := h.active p hp
    obtain ⟨x, hx, hpid⟩ := hc.pid
    obtain ⟨y, hy, hcore⟩ := hm.symm.pcb hx
    have hy' : y.pid = x.pid := (core_eq hcore).2.2.2.2.2.2.2.1.symm
    refine ⟨c, ⟨y, hy, hy'.trans hpid⟩, by rw [hch, hc.child], hc.going, by rw [hrt, hc.shared],
      hc.nonneg, hc.exited, hsem ▸ hc.one, hsem ▸ hperm p c hp hc, ?_,
        by rw [hraised, hsig, hc.raised]⟩
    rw [hsig, hc.flag, bne_iff_ne.mpr hpc, bne_iff_ne.mpr hpc']
  idle hp := by
    rw [hm.cur] at hp
    rw [hsem, hsig, hraised]
    exact h.idle hp

/-! ### Blocking and dispatching -/

/-- The running process is blocked for a page. -/
theorem Serves.paced (hs : Serves clk s s') (hpc : s.pc = .requests) (h : Paced s)
    (hlate : ∀ p v c, s.currProcess = some p → Demands clk s p v → s.child p = some c →
      0 < c.remainingtime) : Paced { s' with pc := .blockEnd } := by
  have hkeep : ∀ (s₁ : RRState), s₁.pc = .blockEnd → SameCore s.toMem s₁.toMem →
      s₁.child = s.child → s₁.shmRT = s.shmRT → s₁.sem = s.sem →
      s₁.processFinishedSignal = s.processFinishedSignal → s₁.raisedBy = s.raisedBy → Paced s₁ := by
    intro s₁ hpc₁ hm hch hrt hsem hsig hraised
    refine h.goto hm hch hrt hsem hsig hraised (by rw [hpc]; exact nofun)
      (by rw [hpc₁]; exact nofun) fun p c hp hc => ?_
    have hperm := hc.permit
    rw [hpc] at hperm
    rw [hpc₁]
    exact hperm
  cases hs with
  | keep _ hm _ => exact hkeep _ rfl hm rfl rfl rfl rfl rfl
  | block _ _ _ hm _ => exact hkeep _ rfl hm rfl rfl rfl rfl rfl
  | @switch m rq ck p x page raw op hp hx hd hf hm hrq =>
    obtain ⟨c, hc⟩ := h.active p hp
    obtain ⟨x', hx', hpid⟩ := hc.pid
    obtain rfl := Option.some.inj (hx'.symm.trans hx)
    have hpos := hlate p page c hp hd hc.child
    have hrun : c.exited = false := by
      refine Bool.eq_false_iff.mpr fun he => ?_
      have := hc.exited he
      omega
    have hperm := hc.permit
    rw [hpc] at hperm
    have hsig : s.processFinishedSignal = false := by rw [hc.flag, hrun, Bool.false_and]
    have hraised : s.raisedBy = [] := by
      rw [hc.raised, hsig]
      rfl
    refine ⟨?_, (fun q hq => nomatch hq), fun _ => ⟨hperm.1, hsig, hraised⟩⟩
    have hsh : Shelved (some p) s.toMem s.child := hp ▸ h.shelved
    have hhalt :=
      hsh.halt (y := x'.halt s.shmRT (clk .reqStopped)) hpid hc.child hrun hpos hc.shared
    show Shelved none { m with currProcess := none } (if x'.pid > 0 then (s.signal p true).child
      else s.child)
    rw [if_pos (by omega)]
    have hpark : Shelved none m (s.signal p true).child := hhalt.sameCore hm
    exact hpark

/-- What runs after a dispatch. -/
theorem Dispatches.active (hd : Dispatches P clk s s') (h : Shelved none s.toMem s.child) :
    ∃ p c x, s'.currProcess = some p ∧ Shelved (some p) s'.toMem s'.child ∧
      s'.heap p = some x ∧ x.pid = (p : ℤ) + 1 ∧ s'.child p = some c ∧ c.stopped = false ∧
      c.exited = false ∧ 0 < c.remainingtime ∧ s'.shmRT = c.remainingtime := by
  cases hd with
  | @intro p x m rest line hq hx hstart hm =>
    obtain ⟨z, hz, hcore⟩ := hm.symm.pcb (withPcb_heap_self _ p (x.dispatched clk p))
    have hzpid : z.pid = (x.dispatched clk p).pid := (core_eq hcore).2.2.2.2.2.2.2.1.symm
    have hcur : m.currProcess = some p := hm.cur
    have hothers : Shelved (some p) m (s.launchedChild P p x) := by
      intro q y hy hq
      have hne : q ≠ p := fun he => hq (he ▸ rfl)
      obtain ⟨u, hu, hc⟩ := hm.pcb hy
      have hu' : s.heap q = some u := (withPcb_heap_of_ne hne _).symm.trans hu
      exact (h q u hu' nofun).congr (Function.update_of_ne hne ..) hc
    have hself : s.launchedChild P p x p = _ := Function.update_self ..
    cases h p x hx nofun with
    | fresh hpid hchild hrem =>
      rw [if_pos hpid] at hself
      refine ⟨p, _, z, hcur, hothers, hz, hzpid.trans ?_, hself, rfl, rfl, hrem, rfl⟩
      rw [PCB.dispatched, if_pos hpid]
      rfl
    | halted hpid hchild hstop hex hpos hrem =>
      have hne : ¬x.pid = -1 := by omega
      rw [if_neg hne, hchild] at hself
      refine ⟨p, _, z, hcur, hothers, hz, hzpid.trans ?_, hself, rfl, hex, hpos, hrem⟩
      rw [PCB.dispatched, if_neg hne]
      exact (stamped_own clk x).pid.trans hpid

/-- A dispatch, when everybody is parked. -/
theorem Dispatches.paced (hd : Dispatches P clk s s') (h : Shelved none s.toMem s.child)
    (hpc : s.pc = .algo) (hsem : s.sem = 0) (hsig : s.processFinishedSignal = false)
    (hraised : s.raisedBy = []) : Paced s' := by
  obtain ⟨p, c, x, hcur, hsh, hx, hpid, hc, hgo, hex, hpos, hrt⟩ := hd.active h
  have hframe : s'.pc = .algo ∧ s'.sem = 0 ∧ s'.processFinishedSignal = false ∧
      s'.raisedBy = [] := by
    cases hd
    exact ⟨hpc, hsem, hsig, hraised⟩
  obtain ⟨hpc', hsem', hsig', hraised'⟩ := hframe
  refine ⟨hcur ▸ hsh, fun q hq => ?_, fun hnone => nomatch hcur.symm.trans hnone⟩
  obtain rfl := Option.some.inj (hcur.symm.trans hq)
  refine ⟨c, ⟨x, hx, hpid⟩, hc, hgo, hrt, hpos.le, fun he => absurd (hex.symm.trans he) nofun,
    by omega, ?_, by rw [hsig', hex, Bool.false_and], by rw [hraised', hsig']; rfl⟩
  rw [hpc']
  exact ⟨hsem', hpos⟩

/-- **`RR_algo` keeps the pace.** -/
theorem Decides.paced (hd : Decides K P clk s s') (hpc : s.pc = .algo) (h : Paced s) :
    Paced s' := by
  have hquiet : s.sem = 0 ∧ s.processFinishedSignal = false ∧ s.raisedBy = [] := by
    cases hp : s.currProcess with
    | none => exact h.idle hp
    | some p =>
      obtain ⟨c, hc⟩ := h.active p hp
      have hperm := hc.permit
      rw [hpc] at hperm
      have hrun : c.exited = false := Bool.eq_false_iff.mpr fun he =>
        absurd (hc.exited he) hperm.2.ne'
      have hsig : s.processFinishedSignal = false := by rw [hc.flag, hrun, Bool.false_and]
      exact ⟨hperm.1, hsig, by rw [hc.raised, hsig]; rfl⟩
  obtain ⟨hsem, hsig, hraised⟩ := hquiet
  cases hd with
  | stay => exact h
  | extend hp =>
    refine h.goto (SameCore.refl _) rfl rfl rfl rfl rfl (by rw [hpc]; exact nofun)
      (by rw [hpc]; exact nofun) fun p c hp hc => hc.permit
  | @preempt p x s₁ _ hp hx hdue hwait hu hheld hbefore hd =>
    obtain ⟨c, hc⟩ := h.active p hp
    obtain ⟨x', hx', hpid⟩ := hc.pid
    obtain rfl := Option.some.inj (hx'.symm.trans hx)
    have hperm := hc.permit
    rw [hpc] at hperm
    have hrun : c.exited = false := Bool.eq_false_iff.mpr fun he =>
      absurd (hc.exited he) hperm.2.ne'
    have hsh : Shelved (some p) s.toMem s.child := hp ▸ h.shelved
    -- the process that is preempted is parked, and unblocking changes nothing about it
    have hstop : Shelved none (s.stopped clk p x').toMem (s.stopped clk p x').child :=
      hsh.halt (y := { x'.halt s.shmRT (clk .stopped) with state := .W }) hpid hc.child hrun
        hperm.2 hc.shared
    obtain ⟨m, u, b, n, hm, -, rfl⟩ := hu
    exact hd.paced (hstop.sameCore hm) hpc hsem hsig hraised
  | @dispatch s₁ hp hd =>
    have h₁ := hd.paced (hp ▸ h.shelved) hpc hsem hsig hraised
    have hpc₁ : s₁.pc ≠ .reap := by
      cases hd
      rw [show RRState.pc _ = s.pc from rfl, hpc]
      exact nofun
    exact h₁.goto (SameCore.refl _) rfl rfl rfl rfl rfl hpc₁ hpc₁ fun p c hp hc => hc.permit

/-- The permit of the turn. -/
theorem Paced.permit (h : Paced s) (hpc : s.pc = .algo) :
    Paced { s.permit with pc := .last } := by
  have hperm : ∀ p c, s.currProcess = some p → Active s p c → s.sem = 0 ∧ 0 < c.remainingtime := by
    intro p c hp hc
    have hperm := hc.permit
    rwa [hpc] at hperm
  have hne : s.pc ≠ .reap := by
    rw [hpc]
    simp
  rw [RRState.permit]
  split_ifs with hgive
  · refine ⟨h.shelved, fun p hp => ?_, fun hnone => absurd hgive.1 ?_⟩
    · obtain ⟨c, hc⟩ := h.active p hp
      refine ⟨c, hc.pid, hc.child, hc.going, hc.shared, hc.nonneg, hc.exited, le_rfl,
        fun _ => (hperm p c hp hc).2, ?_, hc.raised⟩
      rw [hc.flag, bne_iff_ne.mpr hne]
      rfl
    · rw [show s.currProcess = none from hnone]
      simp
  · exact h.goto (SameCore.refl _) rfl rfl rfl rfl rfl hne (by simp) fun p c hp hc _ =>
      (hperm p c hp hc).2

/-! ### The turns -/

/-- A process that is received has no child. -/
theorem Paced.receive {d : ProcessData} (h : Paced s) (hfresh : s.toMem.Fresh) (hs : Started s)
    (hd : 0 < d.runtime) : Paced (s.receiveProcess d) := by
  have hchild : s.child s.brk = none := by
    cases hc : s.child s.brk with
    | none => rfl
    | some c =>
      obtain ⟨x, hx, -⟩ := hs.child s.brk c hc
      exact nomatch (hfresh s.brk le_rfl).symm.trans hx
  refine ⟨fun q x hx hq => ?_, fun p hp => ?_, h.idle⟩
  · by_cases hb : q = s.brk
    · subst hb
      have hself : (s.receiveProcess d).heap s.brk = some (createPCB d) := Function.update_self ..
      obtain rfl := Option.some.inj (hself.symm.trans hx)
      exact .fresh rfl hchild hd
    · exact h.shelved q x ((Function.update_of_ne hb ..).symm.trans hx) hq
  · obtain ⟨c, hc⟩ := h.active p hp
    obtain ⟨x, hx, hpid⟩ := hc.pid
    have hb : p ≠ s.brk := by
      rintro rfl
      exact nomatch (hfresh s.brk le_rfl).symm.trans hx
    exact ⟨c, ⟨x, (Function.update_of_ne hb ..).trans hx, hpid⟩, hc.child, hc.going, hc.shared,
      hc.nonneg, hc.exited, hc.one, hc.permit, hc.flag, hc.raised⟩

/-- **A turn keeps the pace**, if the children have done what they can do when it begins,
and if the running process is not blocked in its last tick. -/
theorem Turn.paced (ht : Turn K P clk s s') (h : Paced s) (hfresh : s.toMem.Fresh)
    (hs : Started s) (hnew : ∀ d, MsgQueue.rcv ProcessData.mtype (-5) s.msgq = some (d, s'.msgq) →
      d.mtype = 1 → 0 < d.runtime)
    (hprompt : s.pc = .top → clk .now ≠ s.lastTick → ∀ p, s.childStep p = none)
    (hlate : s.pc = .requests → ∀ p v c, s.currProcess = some p →
      Demands clk (s.fetched clk) p v → s.child p = some c → 0 < c.remainingtime) :
    Paced s' := by
  -- most phases change nothing that the children see
  have hgo : ∀ {pc : Pc} (s₁ : RRState), s.pc = pc → pc ≠ .reap → s₁.pc ≠ .reap →
      SameCore s.toMem s₁.toMem → s₁.child = s.child → s₁.shmRT = s.shmRT → s₁.sem = s.sem →
      s₁.processFinishedSignal = s.processFinishedSignal → s₁.raisedBy = s.raisedBy →
      (∀ p c, s.currProcess = some p → Active s p c → Permitted pc s.sem c →
        Permitted s₁.pc s.sem c) → Paced s₁ := by
    intro pc s₁ hpc hne hne₁ hm hch hrt hsem hsig hraised hperm
    refine h.goto hm hch hrt hsem hsig hraised (hpc ▸ hne) hne₁ fun p c hp hc => ?_
    exact hperm p c hp hc (hpc ▸ hc.permit)
  cases ht with
  | exit hpc _ _ _ _ =>
    exact hgo _ hpc nofun nofun (SameCore.refl _) rfl rfl rfl rfl rfl fun _ _ _ _ _ => trivial
  | spin hpc => exact h
  | tick hpc hne =>
    refine hgo _ hpc nofun nofun (SameCore.refl _) rfl rfl rfl rfl rfl fun p c hp hc _ => ?_
    -- the child of the running process has no move left
    rcases stuck hc.child hc.going (hprompt hpc hne p) with hex | ⟨hpos, hsem⟩
    · refine ⟨?_, fun _ => hex⟩
      by_contra hsem
      have hone := hc.permit
      rw [hpc] at hone
      have hle := hc.one
      have := hone (by omega)
      have := hc.exited hex
      omega
    · exact ⟨hsem, fun hz => absurd hz.le (not_le.mpr hpos)⟩
  | idle hpc hcur =>
    exact hgo _ hpc nofun nofun (SameCore.refl _) rfl rfl rfl rfl rfl fun _ _ _ _ hperm => hperm
  | @serve s₁ hpc hcur hserve =>
    obtain ⟨rq, mq, hf⟩ := fetched_eq clk s
    have h₁ : Paced (s.fetched clk) := by
      rw [hf]
      exact hgo { s with requests := rq, reqMsgq := mq } hpc nofun (by rw [hpc]; exact nofun)
        (SameCore.refl _) rfl rfl rfl rfl rfl fun _ _ _ _ hperm => by rw [hpc]; exact hperm
    have hlate₁ := hlate hpc
    refine hserve.paced (by rw [hf]; exact hpc) h₁ fun p v c hp hd hc => ?_
    rw [hf] at hp hc
    exact hlate₁ p v c hp hd hc
  | firstScan hpc hu =>
    obtain ⟨m, u, b, n, hm, -, rfl⟩ := hu
    exact hgo _ hpc nofun nofun hm rfl rfl rfl rfl rfl fun _ _ _ _ hperm => hperm
  | finish hpc hcur hsig =>
    refine ⟨h.shelved, fun p hp => ?_, fun hnone => ?_⟩
    · obtain ⟨c, hc⟩ := h.active p hp
      have hperm := hc.permit
      rw [hpc] at hperm
      have hex : c.exited = true := by
        have hflag := hc.flag
        rw [hsig] at hflag
        exact (Bool.and_eq_true_iff.mp hflag.symm).1
      exact ⟨c, hc.pid, hc.child, hc.going, hc.shared, hc.nonneg, hc.exited, hc.one,
        ⟨hperm.1, hex⟩, by rw [hex]; rfl, rfl⟩
    · rw [show s.currProcess = none from hnone] at hcur
      exact nomatch hcur
  | unfinished hpc hnot =>
    refine hgo _ hpc nofun nofun (SameCore.refl _) rfl rfl rfl rfl rfl fun p c hp hc hperm => ?_
    have hsig : s.processFinishedSignal = false := hnot.resolve_left (by rw [hp]; exact nofun)
    have hex : c.exited = false := by
      have hflag := hc.flag
      rw [hsig, hpc] at hflag
      simpa using hflag.symm
    refine ⟨hperm.1, lt_of_le_of_ne hc.nonneg fun hz => ?_⟩
    exact nomatch hex.symm.trans (hperm.2 hz.symm)
  | @reap m p x hpc hcur hx hwait hr =>
    obtain ⟨c, hc⟩ := h.active p hcur
    have hperm := hc.permit
    rw [hpc] at hperm
    have hsig : s.processFinishedSignal = false := by
      rw [hc.flag, hpc]
      exact Bool.and_false _
    refine ⟨fun q y hy _ => ?_, fun q hq => ?_, fun _ => ⟨hperm.1, hsig, ?_⟩⟩
    · have hy : m.heap q = some y := hy
      have hqp : q ≠ p := by
        rintro rfl
        rw [hr.heap, Function.update_self] at hy
        exact nomatch hy
      rw [hr.heap_of_ne hqp] at hy
      refine (h.shelved q y hy ?_).congr (Function.update_of_ne hqp ..) rfl
      rw [hcur]
      exact fun he => hqp (Option.some.inj he).symm
    · exact nomatch hr.cur.symm.trans hq
    · show s.raisedBy = []
      rw [hc.raised, hsig]
      rfl
  | shut hpc hset hlt =>
    exact hgo _ hpc nofun nofun (SameCore.refl _) rfl rfl rfl rfl rfl fun _ _ _ _ hperm _ => hperm.2
  | listen hpc hopen hrec hnow =>
    exact hgo _ hpc nofun nofun (SameCore.refl _) rfl rfl rfl rfl rfl fun _ _ _ _ hperm => hperm
  | skip hpc hopen hnot =>
    exact hgo _ hpc nofun nofun (SameCore.refl _) rfl rfl rfl rfl rfl fun _ _ _ _ hperm => hperm
  | @arrive d rest hpc hrcv hd =>
    have h₁ : Paced { s with msgq := rest } :=
      hgo _ hpc nofun (by rw [hpc]; exact nofun) (SameCore.refl _) rfl rfl rfl rfl rfl
        fun _ _ _ _ hperm => by rw [hpc]; exact hperm
    exact h₁.receive hfresh ⟨hs.running, hs.child, hs.tracked⟩ (hnew d hrcv hd)
  | sync hpc hrcv hd hnow =>
    exact hgo _ hpc nofun nofun (SameCore.refl _) rfl rfl rfl rfl rfl fun _ _ _ _ hperm => hperm
  | last hpc hrcv hd =>
    exact hgo _ hpc nofun nofun (SameCore.refl _) rfl rfl rfl rfl rfl fun _ _ _ _ hperm => hperm
  | drop hpc hrcv h1 h5 h2 =>
    exact hgo _ hpc nofun (by rw [hpc]; exact nofun) (SameCore.refl _) rfl rfl rfl rfl rfl
      fun _ _ _ _ hperm => by rw [hpc]; exact hperm
  | @algo s₁ m print cl hpc hd hm _ =>
    have h₁ : Paced s₁ ∧ s₁.pc = .algo := by
      rcases hd with ⟨-, hd⟩ | ⟨-, rfl⟩
      · have hp := hd.paced hpc h
        obtain ⟨m, r, b, n, t, u, k, rt, log, ch, c, rfl⟩ := hd.frame
        exact ⟨hp, hpc⟩
      · exact ⟨h, hpc⟩
    obtain ⟨hp₁, hpc₁⟩ := h₁
    have hne : s₁.pc ≠ .reap := by
      rw [hpc₁]
      exact nofun
    have h₂ : Paced { s₁ with toMem := m, lastPrint := print, clears := cl } :=
      hp₁.goto hm rfl rfl rfl rfl rfl hne hne fun p c _ hc => hc.permit
    exact h₂.permit hpc₁
  | lastScan hpc hu =>
    obtain ⟨m, u, b, n, hm, -, rfl⟩ := hu
    exact hgo _ hpc nofun nofun hm rfl rfl rfl rfl rfl fun _ _ _ _ hperm => hperm

/-- A child that moves is the one of the running process. -/
theorem childStep_running (hst : s.childStep p = some s') (hs : Started s) (h : Paced s) :
    s.currProcess = some p := by
  obtain ⟨c, hc, -⟩ := childStep_cases hst
  by_contra hne
  obtain ⟨x, hx, -⟩ := hs.child p c hc
  exact nomatch (h.shelved p x hx hne).childStep.symm.trans hst

/-- **A child keeps the pace.** -/
theorem childStep_paced (hst : s.childStep p = some s') (hs : Started s) (h : Paced s) :
    Paced s' := by
  obtain ⟨c, hc, hgo, hex, hmove⟩ := childStep_cases hst
  have hp : s.currProcess = some p := childStep_running hst hs h
  obtain ⟨c', hact⟩ := h.active p hp
  obtain rfl := Option.some.inj (hc.symm.trans hact.child)
  have hsig : s.processFinishedSignal = false := by rw [hact.flag, hex, Bool.false_and]
  have hraised : s.raisedBy = [] := by
    rw [hact.raised, hsig]
    rfl
  have hperm := hact.permit
  -- the other processes are parked as before
  have hsh : ∀ ch, Shelved s.currProcess s.toMem (Function.update s.child p ch) := by
    intro ch q y hy hq
    have hqp : q ≠ p := by
      rintro rfl
      exact hq hp
    exact (h.shelved q y hy hq).congr (Function.update_of_ne hqp ..) rfl
  have hcur : ∀ {q}, s.currProcess = some q → q = p := fun hq =>
    (Option.some.inj (hp.symm.trans hq)).symm
  rcases hmove with ⟨hdone, rfl⟩ | ⟨hpos, hsem, rfl⟩
  · have hzero : c.remainingtime = 0 := le_antisymm hdone hact.nonneg
    refine ⟨hsh _, fun q hq => ?_, fun hnone => nomatch hp.symm.trans hnone⟩
    obtain rfl := hcur hq
    refine ⟨{ c with exited := true }, hact.pid, Function.update_self .., hgo, hact.shared,
      hact.nonneg, fun _ => hzero, hact.one, ?_, ?_, ?_⟩
    · show Permitted s.pc s.sem _
      cases hpc : s.pc <;> rw [hpc] at hperm
      case requests | blockEnd | finish => exact ⟨hperm.1, fun _ => rfl⟩
      case reap => exact ⟨hperm.1, rfl⟩
      all_goals exact hperm
    · show true = (true && s.pc != .reap)
      cases hpc : s.pc <;> rw [hpc] at hperm
      case reap => exact nomatch hex.symm.trans hperm.2
      all_goals rfl
    · show s.raisedBy ++ [q] = [q]
      rw [hraised, List.nil_append]
  · have hend : s.sem = 1 := le_antisymm hact.one hsem
    refine ⟨hsh _, fun q hq => ?_, fun hnone => nomatch hp.symm.trans hnone⟩
    obtain rfl := hcur hq
    refine ⟨_, hact.pid, Function.update_self .., hgo, rfl, ?_,
      fun he => absurd (hex.symm.trans he) nofun, ?_, ?_, ?_, hact.raised⟩
    · show 0 ≤ c.remainingtime - 1
      omega
    · show s.sem - 1 ≤ 1
      omega
    · -- a permit is there at the end of a turn only
      show Permitted s.pc (s.sem - 1) _
      cases hpc : s.pc <;> rw [hpc] at hperm
      case top | last =>
        intro hone
        omega
      case exited => trivial
      all_goals exact absurd hperm.1 (by omega)
    · show s.processFinishedSignal = (c.exited && s.pc != .reap)
      exact hact.flag

end RRState

namespace World

open RRState

variable {P : Params} {adm : ProcessData → Prop} {C : World → Event → Prop} {w w' : World}
  {e : Event}

/-! ### The runs -/

/-- **The children are prompt**: when the scheduler begins a turn, no child has a move
left. -/
def Prompt (w : World) : Event → Prop
  | .sched clk _ => w.rr.pc = .top → clk .now ≠ w.rr.lastTick → ∀ p, w.rr.childStep p = none
  | _ => True

/-- **No request of a last tick misses**: when a page is demanded for the running
process, it has something left to do. -/
def InTime (w : World) : Event → Prop
  | .sched clk _ => w.rr.pc = .requests → ∀ p v c, w.rr.currProcess = some p →
      Demands clk (w.rr.fetched clk) p v → w.rr.child p = some c → 0 < c.remainingtime
  | _ => True

/-- The runs with prompt children in which no request of a last tick misses. -/
def punctual (P : Params) : TransitionSystem World :=
  systemIf P (fun _ => True) fun w e => Prompt w e ∧ InTime w e

theorem Step.paced (hst : Step P e w w') (hprompt : Prompt w e) (htime : InTime w e)
    (hi : Inv (fun _ => True) (fun _ => True) w) (hs : Started w.rr) (h : Paced w.rr) :
    Paced w'.rr := by
  cases hst with
  | @sched _ clk s t _ hphase =>
    refine (hi.turn hphase).paced h hi.held.fresh hs (fun d hrcv h1 => ?_) hprompt htime
    have hd : d ∈ w.pending := List.mem_append_right _ (List.mem_filter.mpr
      ⟨(MsgQueue.perm_of_rcv hrcv).mem_iff.mpr List.mem_cons_self, decide_eq_true h1⟩)
    exact (hi.good d hd).2.1
  | child hchild => exact childStep_paced hchild hs h
  | _ =>
    refine ⟨h.shelved, fun p hp => ?_, h.idle⟩
    obtain ⟨c, hc⟩ := h.active p hp
    exact ⟨c, hc.pid, hc.child, hc.going, hc.shared, hc.nonneg, hc.exited, hc.one, hc.permit,
      hc.flag, hc.raised⟩

theorem reachable_paced (hC : ∀ w e, C w e → Prompt w e ∧ InTime w e)
    (h : (systemIf P adm C).Reachable w) : Paced w.rr := by
  refine h.invariant_of (J := fun w => Inv (fun _ => True) (fun _ => True) w ∧ Asked w)
    (P := fun w => Paced w.rr) (fun w hw => ?_) ?_ ?_
  · have hsys : (system P).Reachable w :=
      reachable_mono (fun _ _ => trivial) (reachable_of_if hw)
    exact ⟨reachable_inv hsys, reachable_asked hsys⟩
  · rintro w ⟨l, t, -, -, ht, rfl⟩
    exact ⟨(fun q x hx => nomatch hx), (fun p hp => nomatch hp), fun _ => ⟨rfl, rfl, rfl⟩⟩
  · rintro w w' ⟨hi, ha⟩ h ⟨e, hst, hc⟩
    obtain ⟨hp, ht⟩ := hC w e hc
    exact hst.paced hp ht hi ha.toStarted h

/-- **A pending signal is the one of the running process**, and the process has nothing
left to do, in every state of every run with prompt children in which no request of a
last tick misses. -/
theorem reachable_attributed (h : (punctual P).Reachable w) : Attributed w.rr :=
  (reachable_paced (fun _ _ hc => hc) h).attributed

/-! ### A last tick that misses -/

/-- The check of an explicit run: the children that exist have no move left when a turn
begins. -/
def promptCheck (w : World) : Move → Bool
  | .sched a _ => w.rr.pc ≠ .top || a = w.rr.lastTick ||
      (List.range w.rr.brk).all fun p => (w.rr.childStep p).isNone
  | _ => true

/-- There are no other children. -/
theorem prompt_of_check {mv : Move} (h : (systemIf P adm C).Reachable w)
    (hchk : promptCheck w mv = true) : Prompt w mv.event := by
  have hsys : (system P).Reachable w :=
    reachable_mono (fun _ _ => trivial) (reachable_of_if h)
  cases mv with
  | sched a b =>
    intro hpc hne p
    simp only [promptCheck, Bool.or_eq_true, decide_eq_true_eq] at hchk
    have hall := hchk.resolve_left fun ho => ho.elim (fun h => h hpc) hne
    by_cases hp : p < w.rr.brk
    · exact Option.isNone_iff_eq_none.mp (List.all_eq_true.mp hall p (List.mem_range.mpr hp))
    · cases hc : w.rr.child p with
      | none =>
        rw [childStep, hc]
      | some c =>
        obtain ⟨x, hx, -⟩ := (reachable_asked hsys).child p c hc
        exact absurd (((reachable_inv hsys).held.fresh p (not_lt.mp hp)).symm.trans hx) (by simp)
  | _ => exact trivial

/-- Besides, when `handleRequests` is called, the running process has something left to do. -/
def punctualCheck (w : World) (mv : Move) : Bool :=
  promptCheck w mv && match mv with
    | .sched a b => w.rr.pc ≠ .requests || (w.rr.fetched (readings a b)).requests.isEmpty ||
        (w.rr.currProcess.bind w.rr.child).all fun c => 0 < c.remainingtime
    | _ => true

theorem punctual_of_check {mv : Move} (h : (systemIf P adm C).Reachable w)
    (hchk : punctualCheck w mv = true) : Prompt w mv.event ∧ InTime w mv.event := by
  obtain ⟨hprompt, hrest⟩ := Bool.and_eq_true_iff.mp hchk
  refine ⟨prompt_of_check h hprompt, ?_⟩
  cases mv with
  | sched a b =>
    intro hpc p v c hp hd hc
    simp only [Bool.or_eq_true, decide_eq_true_eq, List.isEmpty_iff, or_assoc] at hrest
    rcases hrest.resolve_left (not_not_intro hpc) with hnil | hleft
    · obtain ⟨req, rest, hreq, -⟩ := hd
      exact nomatch hnil.symm.trans hreq
    · rw [hp, Option.bind_some, hc, Option.all_some, decide_eq_true_eq] at hleft
      exact hleft
  | _ => exact trivial

/-- The process of the examples, with one tick to execute. -/
def shortProcess : ProcessData := { soleProcess 2 with runtime := 1 }

/-- It is dispatched at tick 1 and executes; the run stops in front of
`handleFinishedProcesses` at tick 2. -/
def shortRun : List Move := firstTick ++ [.child 0, .child 0] ++ List.replicate 3 (.sched 2 2)

/-- The third of three processes has finished when `handleFinishedProcesses` is called; the
others are ready and blocked. -/
theorem reachable_attributed_preempted :
    ∃ w, playIf threeParams punctualCheck (start threeAtOnce 1) (preemptedRun ++ stepsAt 3 7) =
        some w ∧ w.rr.pc = .finish ∧ w.rr.processFinishedSignal = true ∧ w.rr.raisedBy = [2] ∧
      w.rr.readyQueue = [1] ∧ w.rr.blockQueue = [0] ∧ Attributed w.rr := by
  have hrun : (playIf threeParams punctualCheck (start threeAtOnce 1)
      (preemptedRun ++ stepsAt 3 7)).map (fun w => (w.rr.pc, w.rr.processFinishedSignal,
        w.rr.raisedBy, w.rr.readyQueue, w.rr.blockQueue)) =
          some (.finish, true, [2], [1], [0]) := by
    decide +kernel
  obtain ⟨w, hw, he⟩ := Option.map_eq_some_iff.mp hrun
  simp only [Prod.mk.injEq] at he
  obtain ⟨hpc, hsig, hraised, hready, hblock⟩ := he
  have hstart : (punctual threeParams).Reachable (start threeAtOnce 1) :=
    .init ⟨_, 1, workload_threeAtOnce, fun _ _ => trivial, by decide, rfl⟩
  exact ⟨w, hw, hpc, hsig, hraised, hready, hblock, reachable_attributed
    (playIf_reachable (fun w e hr hc => punctual_of_check hr hc) hstart hw)⟩

/-- Two processes that arrive together. -/
def shortAndLong : List ProcessData := [shortProcess, { soleProcess 2 with id := 8, runtime := 2 }]

/-- The first of them asks for its page 1 in its only tick. -/
def lastTickParams : Params where
  quantum := 2
  k := 0
  requestFile := fun id =>
    if id = 7 then [{ mtype := 1, tick := 0, address := ['1', '6'], operation := 'r' }] else []

/-- It is blocked at tick 2 and the other one is dispatched at tick 3; the run stops in
front of `handleFinishedProcesses` at tick 4. -/
def lastTickRun : List Move := List.flatten
  [[.observe 1, .send, .send, .sync, .last], List.replicate 10 (.sched 1 1), [.child 0, .child 0],
    List.replicate 6 (.sched 2 2), List.replicate 8 (.sched 3 3), [.child 1],
    List.replicate 3 (.sched 4 4)]

/-- **A signal outlives its process**: the process that has missed a page in its last tick
is blocked, and its signal is pending when `handleFinishedProcesses` is called for
the next one. -/
theorem not_attributed_lastTick :
    ¬∀ (P : Params) (w : World), (systemIf P (fun _ => True) Prompt).Reachable w →
      w.rr.pc = .finish → w.rr.currProcess.isSome → Attributed w.rr := by
  intro hall
  have hrun : (playIf lastTickParams promptCheck (start shortAndLong 1) lastTickRun).map
      (fun w => (w.rr.pc, w.rr.currProcess, w.rr.processFinishedSignal, w.rr.raisedBy)) =
        some (.finish, some 1, true, [0]) := by
    decide +kernel
  obtain ⟨w, hw, he⟩ := Option.map_eq_some_iff.mp hrun
  simp only [Prod.mk.injEq] at he
  obtain ⟨hpc, hcur, hsig, hraised⟩ := he
  have hstart : (systemIf lastTickParams (fun _ => True) Prompt).Reachable
      (start shortAndLong 1) := by
    refine .init ⟨shortAndLong, 1, ⟨?_, ?_, ?_⟩, fun _ _ => trivial, by decide, rfl⟩ <;> decide
  have hreach := playIf_reachable (fun w e hr hc => prompt_of_check hr hc) hstart hw
  obtain ⟨p, c, hp, hr, -⟩ := hall _ w hreach hpc (by rw [hcur]; rfl) hsig
  obtain rfl := Option.some.inj (hcur.symm.trans hp)
  exact nomatch hraised.symm.trans hr

end World

end CpuScheduler
