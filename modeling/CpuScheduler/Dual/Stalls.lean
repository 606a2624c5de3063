import CpuScheduler.Dual.Exact

/-!
# The time of a process that is stalled

A sub-scheduler stamps what happens with its own value of the tick, but for the begin of a
stall, which `stall_sig` stamps with the clock. In the runs considered here these agree
(`CpuScheduler.Dual.World.InTick`): the signal comes while the sub-scheduler waits at the gate in
its iteration for the tick that the clock shows. A stall may be extended before it has ended, and
may begin and end with no process running.

The accounts of the running process are kept up to an edge (`CpuScheduler.Dual.Sub.edge`): the
begin of the tick, as long as the iteration has not given its permit, and the end of the tick from
then on.

| state of the running process | where its time has gone |
|------------------------------|-------------------------|
| not stalled | arrival + waiting + executed + permit = edge |
| stalled | arrival + waiting + executed = begin of the stall |

Both lines are fields of `CpuScheduler.Dual.Sub.Running`, and every event that can happen to a
sub-scheduler keeps them (`CpuScheduler.Dual.World.Happens.timekept`).
-/

namespace CpuScheduler

namespace Dual

open Fallible

/-! ### The phases of an iteration -/

/-- The parts of an iteration in which the running process, its child and its permits are in
the same condition. -/
inductive Phase
  /-- The time between two iterations. -/
  | out
  | finish | gate
  /-- Behind the gate, before a stall ends. -/
  | passed
  | test | algo | dequeue
  /-- The next process has been taken out of the queue, and has no child yet. -/
  | loading
  | clear | permit
deriving DecidableEq, Repr

/-- The phase of a place. -/
def SubPc.phase : SubPc → Phase
  | .finish => .finish
  | .gate => .gate
  | .drain true | .put true _ | .resume => .passed
  | .test => .test
  | .algo => .algo
  | .dequeue => .dequeue
  | .count | .update .run | .total .run _ _ | .write .run _ _ | .run => .loading
  | .clear => .clear
  | .permit => .permit
  | _ => .out

/-- The stall of a process that is about to be dispatched has ended. -/
def Phase.dispatching : Phase → Bool
  | .algo | .dequeue | .loading | .clear => true
  | _ => false

/-- In an iteration, in front of the gate. -/
def Phase.front : Phase → Bool
  | .finish | .gate => true
  | _ => false

/-- Behind the gate. -/
def Phase.behind : Phase → Bool
  | .out | .finish | .gate => false
  | _ => true

theorem Phase.front_eq_false {p : Phase} (h : p.behind = true) : p.front = false := by
  cases p with
  | finish | gate => exact nomatch h
  | _ => rfl

namespace Sub

variable {clk rem : ℤ} {s s' : Sub} {x y : PCB} {ch : Child}

/-- The time up to which the accounts are kept. -/
def edge (s : Sub) : ℤ := if s.pc.phase = .out then s.lastTick + 1 else s.now

theorem edge_turn (h : s.pc.phase ≠ .out) : s.edge = s.now := if_neg h

theorem edge_out (h : s.pc.phase = .out) : s.edge = s.lastTick + 1 := if_pos h

/-! ### The running process -/

/-- The ticks that a process with the child `ch` has executed. -/
def executed (x : PCB) (ch : Child) : ℤ := x.runtime - ch.remainingtime

/-- **Where the time of the running process has gone.** -/
structure Running (s : Sub) (x : PCB) (ch : Child) : Prop where
  pid : x.pid ≠ -1
  left : 0 ≤ ch.remainingtime
  signalled : ch.exited = s.processFinished
  done : ch.exited = true → ch.remainingtime = 0
  /-- The child is stopped exactly during a stall. -/
  stopped : ch.stopped = s.stalled
  alive : s.stalled = true → s.processFinished = false
  halted : s.stalled = true → 0 ≤ x.lastStopped ∧
    x.arrival + x.waitingTime + executed x ch = x.lastStopped
  since : s.stalled = false → x.arrival + x.waitingTime + executed x ch + s.sem = s.edge

/-- The accounts do not depend on anything else. -/
theorem Running.congr (h : s.Running x ch) (hsem : s'.sem = s.sem) (hst : s'.stalled = s.stalled)
    (hfin : s'.processFinished = s.processFinished) (hE : s'.edge = s.edge) : s'.Running x ch where
  pid := h.pid
  left := h.left
  signalled := hfin ▸ h.signalled
  done := h.done
  stopped := hst ▸ h.stopped
  alive := by
    rw [hst, hfin]
    exact h.alive
  halted := by
    rw [hst]
    exact h.halted
  since := by
    rw [hst, hsem, hE]
    exact h.since

/-- **What a sub-scheduler keeps** in its iterations. -/
structure Timekept (s : Sub) : Prop where
  tick : s.currentTickTime = s.now
  zero : 0 ≤ s.now
  behind : s.pc.phase.behind = true → s.lastTick = s.now
  unstalled : s.pc.phase.dispatching = true → s.stalled = false
  free : s.pc.phase = .dequeue → s.currProcess = none
  idle : s.currProcess = none → s.child = none ∧ s.processFinished = false
  /-- The permit is given at the end of the iteration. -/
  unpermitted : s.pc.phase ≠ .out → s.sem = 0
  /-- The child has done what it can when an iteration begins. -/
  still : s.pc.phase.front = true → s.childStep = none
  handled : s.pc.phase = .gate → s.processFinished = false
  loading : s.pc.phase = .loading → s.child = none ∧ s.processFinished = false ∧
    ∃ pd, s.currProcess = some (createPCB pd) ∧ 0 ≤ pd.runtime
  running : s.pc.phase ≠ .loading → ∀ x, s.currProcess = some x →
    ∃ ch, s.child = some ch ∧ s.Running x ch

/-! ### The child -/

theorem childStep_none (h : s.child = none) : s.childStep = none := by
  rw [childStep, h]

/-- A child that is stopped makes no step. -/
theorem childStep_stopped (hch : s.child = some ch) (h : ch.stopped = true) :
    s.childStep = none := by
  rw [childStep, hch]
  exact if_pos (Or.inl h)

/-- **Nothing is executed during a stall.** -/
theorem Timekept.childStep_eq_none (h : s.Timekept) (hst : s.stalled = true) :
    s.childStep = none := by
  cases hcurr : s.currProcess with
  | none => exact childStep_none (h.idle hcurr).1
  | some x =>
    by_cases hl : s.pc.phase = .loading
    · exact childStep_none (h.loading hl).1
    · obtain ⟨ch, hch, hx⟩ := h.running hl x hcurr
      exact childStep_stopped hch (hx.stopped.trans hst)

/-- **A step of the child**: it has nothing left and exits, or it takes a permit. -/
theorem childStep_cases (h : s.childStep = some s') : ∃ ch, s.child = some ch ∧
    ch.stopped = false ∧ ch.exited = false ∧
    ((ch.remainingtime ≤ 0 ∧ s' = { s with
        child := some { ch with exited := true }, processFinished := true }) ∨
      (0 < ch.remainingtime ∧ s.sem ≠ 0 ∧ s' = { s with
        sem := s.sem - 1
        shmRT := ch.remainingtime - 1
        child := some { ch with remainingtime := ch.remainingtime - 1 } })) := by
  rw [childStep] at h
  cases hch : s.child with
  | none =>
    rw [hch] at h
    cases h
  | some ch =>
    rw [hch] at h
    dsimp only at h
    split_ifs at h with hend hleft hsem
    · obtain ⟨hstop, hexit⟩ := not_or.mp hend
      exact ⟨ch, rfl, Bool.eq_false_of_not_eq_true hstop, Bool.eq_false_of_not_eq_true hexit,
        Or.inl ⟨hleft, (Option.some.inj h).symm⟩⟩
    · obtain ⟨hstop, hexit⟩ := not_or.mp hend
      exact ⟨ch, rfl, Bool.eq_false_of_not_eq_true hstop, Bool.eq_false_of_not_eq_true hexit,
        Or.inr ⟨not_le.mp hleft, hsem, (Option.some.inj h).symm⟩⟩

theorem Timekept.childStep (h : s.Timekept) (hs : s.childStep = some s') : s'.Timekept := by
  have hst : s.stalled = false := by
    by_contra hst
    rw [h.childStep_eq_none (Bool.eq_true_of_not_eq_false hst)] at hs
    exact nomatch hs
  have hstill : s.pc.phase.front ≠ true := by
    intro hph
    rw [h.still hph] at hs
    exact nomatch hs
  have hgate : s.pc.phase ≠ .gate := by
    intro hph
    rw [hph] at hstill
    exact hstill rfl
  obtain ⟨ch, hch, hstop, hexit, hcases⟩ := childStep_cases hs
  have hl : s.pc.phase ≠ .loading := by
    intro hl
    rw [(h.loading hl).1] at hch
    exact nomatch hch
  -- The child belongs to the running process.
  obtain ⟨x, hx⟩ : ∃ x, s.currProcess = some x := by
    by_contra hnone
    have hidle := h.idle (Option.eq_none_iff_forall_ne_some.mpr fun x hx => hnone ⟨x, hx⟩)
    rw [hidle.1] at hch
    exact nomatch hch
  obtain ⟨ch', hch', hr⟩ := h.running hl x hx
  obtain rfl : ch = ch' := Option.some.inj (hch.symm.trans hch')
  have hsince := hr.since hst
  have hleft := hr.left
  rcases hcases with ⟨hend, rfl⟩ | ⟨hpos, hsem, rfl⟩
  · refine ⟨h.tick, h.zero, h.behind, h.unstalled, h.free, fun hn => ?_, h.unpermitted,
      fun hph => absurd hph hstill, fun hph => absurd hph hgate,
      fun hph => absurd hph hl, fun _ y hy => ?_⟩
    · exact nomatch hx.symm.trans hn
    · obtain rfl : x = y := Option.some.inj (hx.symm.trans hy)
      exact ⟨_, rfl, hr.pid, hleft, rfl, fun _ => le_antisymm hend hleft, hr.stopped,
        fun h => (nomatch hst.symm.trans h), fun h => (nomatch hst.symm.trans h), hr.since⟩
  · have hout : s.pc.phase = .out := by
      by_contra hout
      exact hsem (h.unpermitted hout)
    refine ⟨h.tick, h.zero, h.behind, h.unstalled, h.free, fun hn => ?_,
      fun hne => absurd hout hne, fun hph => absurd hph hstill,
      fun hph => absurd hph hgate, fun hph => absurd hph hl, fun _ y hy => ?_⟩
    · exact nomatch hx.symm.trans hn
    · obtain rfl : x = y := Option.some.inj (hx.symm.trans hy)
      refine ⟨_, rfl, hr.pid, Int.sub_nonneg_of_le hpos, hr.signalled,
        fun h => (nomatch hexit.symm.trans h), hr.stopped, fun h => (nomatch hst.symm.trans h),
        fun h => (nomatch hst.symm.trans h), fun _ => ?_⟩
      show x.arrival + x.waitingTime + (x.runtime - (ch.remainingtime - 1)) + (s.sem - 1 : ℕ) =
        s.edge
      rw [executed] at hsince
      have hnat : ((s.sem - 1 : ℕ) : ℤ) = s.sem - 1 :=
        Int.ofNat_sub (Nat.one_le_iff_ne_zero.mpr hsem)
      omega

/-! ### The steps of a sub-scheduler -/

/-- **What the begin of an iteration for a new tick rests on**: the child has taken its permit and,
if it is done, has signalled, and no tick has been left out while a process was running. -/
def Prompt (clk : ℤ) (s : Sub) : Prop :=
  s.sem = 0 ∧ s.childStep = none ∧
    (s.currProcess = none ∨ s.stalled = true ∨ clk = s.lastTick + 1)

theorem childStep_congr (hch : s'.child = s.child) (hsem : s'.sem = s.sem)
    (h : s.childStep = none) : s'.childStep = none := by
  rw [Sub.childStep] at h ⊢
  rw [hch, hsem]
  cases hc : s.child with
  | none => rfl
  | some ch =>
    rw [hc] at h
    dsimp only at h ⊢
    split_ifs at h ⊢ <;> rfl

/-- **A step that the accounts are not about**, to a phase with the conditions that hold
there. -/
theorem Timekept.goto (h : s.Timekept) (hcurr : s'.currProcess = s.currProcess)
    (hch : s'.child = s.child) (hsem : s'.sem = s.sem) (hst : s'.stalled = s.stalled)
    (hfin : s'.processFinished = s.processFinished) (htick : s'.currentTickTime = s'.now)
    (hzero : 0 ≤ s'.now) (hbehind : s'.pc.phase.behind = true → s'.lastTick = s'.now)
    (hdisp : s'.pc.phase.dispatching = true → s.stalled = false)
    (hfree : s'.pc.phase = .dequeue → s.currProcess = none)
    (hperm : s'.pc.phase ≠ .out → s.sem = 0)
    (hstill : s'.pc.phase.front = true → s.childStep = none)
    (hhand : s'.pc.phase = .gate → s.processFinished = false)
    (hload : s'.pc.phase = .loading ↔ s.pc.phase = .loading)
    (hE : ∀ x, s.currProcess = some x → s.stalled = false → s'.edge = s.edge) : s'.Timekept where
  tick := htick
  zero := hzero
  behind := hbehind
  unstalled hph := hst.trans (hdisp hph)
  free hph := hcurr.trans (hfree hph)
  idle hn := by
    rw [hch, hfin]
    exact h.idle (hcurr ▸ hn)
  unpermitted hph := hsem.trans (hperm hph)
  still hph := childStep_congr hch hsem (hstill hph)
  handled hph := hfin.trans (hhand hph)
  loading hph := by
    rw [hch, hfin, hcurr]
    exact h.loading (hload.mp hph)
  running hph x hx := by
    rw [hcurr] at hx
    obtain ⟨ch, hc, hr⟩ := h.running (fun hl => hph (hload.mpr hl)) x hx
    refine ⟨ch, hch.trans hc, hr.pid, hr.left, hr.signalled.trans hfin.symm, hr.done,
      hr.stopped.trans hst.symm, fun ht => hfin.trans (hr.alive (hst ▸ ht)),
      fun ht => hr.halted (hst ▸ ht), fun ht => ?_⟩
    rw [hst] at ht
    rw [hsem, hE x hx ht]
    exact hr.since ht

/-- The steps within a phase. -/
theorem Timekept.within (h : s.Timekept) (hcurr : s'.currProcess = s.currProcess)
    (hch : s'.child = s.child) (hsem : s'.sem = s.sem) (hst : s'.stalled = s.stalled)
    (hfin : s'.processFinished = s.processFinished) (htick : s'.currentTickTime = s.currentTickTime)
    (hnow : s'.now = s.now) (hlast : s'.lastTick = s.lastTick)
    (hph : s'.pc.phase = s.pc.phase) : s'.Timekept := by
  refine h.goto hcurr hch hsem hst hfin (htick.trans (h.tick.trans hnow.symm))
    (hnow.symm ▸ h.zero) ?_ ?_ ?_ ?_ ?_ ?_ (by rw [hph]) (fun _ _ _ => ?_)
  · rw [hph, hlast, hnow]
    exact h.behind
  · rw [hph]
    exact h.unstalled
  · rw [hph]
    exact h.free
  · rw [hph]
    exact h.unpermitted
  · rw [hph]
    exact h.still
  · rw [hph]
    exact h.handled
  · rw [edge, edge, hph, hlast, hnow]

/-- The end of a stall: it goes on, or there was no process to be stopped, or the running process
is continued. -/
theorem endStall_cases (s : Sub) (clk : ℤ) (hpid : ∀ x, s.currProcess = some x → x.pid ≠ -1) :
    s.endStall clk = s ∨
    (s.stalled = true ∧ s.currProcess = none ∧ s.endStall clk = { s with stalled := false }) ∨
    ∃ x y r, s.stalled = true ∧ s.currProcess = some x ∧ y = { x with
      waitingTime := if x.lastStopped ≥ 0 then
        x.waitingTime + (s.currentTickTime - x.lastStopped) else x.waitingTime
      lState := .resume
      state := .R } ∧ r.lState = .resume ∧
      s.endStall clk = { s with
        stalled := false
        child := s.child.map fun c => { c with stopped := false }
        currProcess := some y
        log := s.log ++ [r] } := by
  rw [endStall]
  split_ifs with hend
  · dsimp only
    cases hcurr : s.currProcess with
    | none => exact Or.inr (Or.inl ⟨hend.1, rfl, rfl⟩)
    | some x =>
      dsimp only
      rw [if_pos (hpid x hcurr)]
      exact Or.inr (Or.inr ⟨x, _, _, hend.1, rfl, rfl, rfl, rfl⟩)
  · exact Or.inl rfl

/-- `finishLogic`, with its line in the log. -/
theorem finishLogic_cases (h : s.finishLogic clk = .ok s') : ∃ x r p, s.currProcess = some x ∧
    r = RRState.lineOf { x with
      finishTime := s.currentTickTime, remainingTime := 0, state := .F, lState := .finish } clk ∧
    s' = { s with
      currProcess := none
      contextSwitchUntil := s.currentTickTime + 1
      log := s.log ++ [r]
      perf := p
      processFinished := false
      child := none
      finished := s.finished ++ [x.id] } := by
  rw [finishLogic] at h
  cases hcurr : s.currProcess with
  | none =>
    rw [hcurr] at h
    cases h
  | some x =>
    rw [hcurr] at h
    obtain ⟨u, hu, h⟩ := bind_eq_ok.mp h
    exact ⟨x, _, _, rfl, rfl, (Except.ok.inj h).symm⟩

/-- `runProcess` on a process that has never run. -/
theorem runProcess_createPCB {pd : ProcessData} (hcurr : s.currProcess = some (createPCB pd))
    (h : s.runProcess clk = .ok s') : ∃ y r, y = { createPCB pd with
      startTime := s.currentTickTime
      waitingTime := s.currentTickTime - pd.arrival
      lState := .start
      pid := 1
      state := .R } ∧ r.lState = .start ∧ s' = { s with
      shmRT := pd.runtime
      log := s.log ++ [r]
      child := some { remainingtime := pd.runtime, stopped := false, exited := false }
      currProcess := some y } := by
  rw [runProcess, hcurr] at h
  exact ⟨_, _, rfl, rfl, (Except.ok.inj h).symm⟩

/-- The process ids of the PCBs that are not being loaded. -/
theorem Timekept.pid (h : s.Timekept) (hl : s.pc.phase ≠ .loading) :
    ∀ x, s.currProcess = some x → x.pid ≠ -1 := by
  intro x hx
  obtain ⟨ch, -, hr⟩ := h.running hl x hx
  exact hr.pid

/-- The gate is passed. -/
theorem Timekept.pass (h : s.Timekept) (hpc : s.pc = .gate) :
    ({ s with lastTick := s.now, pc := .drain true } : Sub).Timekept := by
  have hph : s.pc.phase = .gate := congrArg SubPc.phase hpc
  have hturn : s.pc.phase ≠ .out := by
    rw [hph]
    exact nofun
  exact h.goto rfl rfl rfl rfl rfl h.tick h.zero (fun _ => rfl) (fun h => nomatch h)
    (fun h => nomatch h) (fun _ => h.unpermitted hturn) (fun h => nomatch h) (fun h => nomatch h)
    (iff_of_false nofun fun h => nomatch hph.symm.trans h) fun _ _ _ => (edge_turn hturn).symm

/-- A new iteration begins. -/
theorem Timekept.new (h : s.Timekept) (hpc : s.pc = .tick) (hp : s.Prompt clk) (hclk : 0 ≤ clk) :
    ({ s with now := clk, currentTickTime := clk, pc := .finish } : Sub).Timekept := by
  obtain ⟨hsem, hstill, hnext⟩ := hp
  have hph : s.pc.phase = .out := congrArg SubPc.phase hpc
  refine h.goto rfl rfl rfl rfl rfl rfl hclk (fun h => nomatch h) (fun h => nomatch h)
    (fun h => nomatch h) (fun _ => hsem) (fun _ => hstill) (fun h => nomatch h)
    (iff_of_false nofun fun h => nomatch hph.symm.trans h) fun x hx hst => ?_
  rcases hnext with hnone | hstalled | hnext
  · exact nomatch hx.symm.trans hnone
  · exact nomatch hst.symm.trans hstalled
  · exact hnext.trans (edge_out hph).symm

/-- **A process is finished**: its child has exited, and the tick in which it has done so is
over. -/
theorem Timekept.finish_eq (h : s.Timekept) (hpc : s.pc = .finish) (hfin : s.processFinished = true)
    (hx : s.currProcess = some x) :
    s.currentTickTime - x.arrival = x.waitingTime + x.runtime := by
  have hph : s.pc.phase = .finish := congrArg SubPc.phase hpc
  have hturn : s.pc.phase ≠ .out := by
    rw [hph]
    exact nofun
  have hl : s.pc.phase ≠ .loading := by
    rw [hph]
    exact nofun
  obtain ⟨ch, -, hr⟩ := h.running hl x hx
  have hst : s.stalled = false := by
    by_contra hst
    exact nomatch hfin.symm.trans (hr.alive (Bool.eq_true_of_not_eq_false hst))
  have hsince := hr.since hst
  rw [edge_turn hturn, h.unpermitted hturn, executed, hr.done (hr.signalled.trans hfin)] at hsince
  rw [h.tick]
  push_cast at hsince
  omega

/-- The processor is free. -/
theorem Timekept.finish (h : s.Timekept) (hpc : s.pc = .finish) (hs : s.finishLogic clk = .ok s') :
    ({ s' with pc := .gate } : Sub).Timekept := by
  have hph : s.pc.phase = .finish := congrArg SubPc.phase hpc
  have hsem : s.sem = 0 := h.unpermitted fun h => nomatch hph.symm.trans h
  obtain ⟨x, r, p, hx, -, rfl⟩ := finishLogic_cases hs
  exact ⟨h.tick, h.zero, fun h => (nomatch h), fun h => (nomatch h), fun h => (nomatch h),
    fun _ => ⟨rfl, rfl⟩, fun _ => hsem, fun _ => childStep_none rfl, fun _ => rfl,
    fun h => (nomatch h), fun _ y (hy : none = some y) => nomatch hy⟩

/-- A step from one phase behind the gate to another one. -/
theorem Timekept.onward (h : s.Timekept) {pc : SubPc} (n : ℤ) (hb : s.pc.phase.behind = true)
    (hl : s.pc.phase ≠ .loading) (hb' : pc.phase.behind = true) (hl' : pc.phase ≠ .loading)
    (hdisp : pc.phase.dispatching = true → s.stalled = false)
    (hfree : pc.phase = .dequeue → s.currProcess = none) :
    ({ s with contextSwitchUntil := n, pc := pc } : Sub).Timekept := by
  have hout : ∀ {p : Phase}, p.behind = true → p ≠ .out := by
    rintro p hp rfl
    exact nomatch hp
  have hfront : pc.phase.front ≠ true := fun hf => nomatch (Phase.front_eq_false hb').symm.trans hf
  refine h.goto rfl rfl rfl rfl rfl h.tick h.zero (fun _ => h.behind hb) hdisp hfree
    (fun _ => h.unpermitted (hout hb)) (fun hf => absurd hf hfront) (fun hg => ?_)
    (iff_of_false hl' hl) fun _ _ _ => ?_
  · refine absurd ?_ hfront
    change pc.phase = .gate at hg
    rw [hg]
    rfl
  · exact (edge_turn (hout hb')).trans (edge_turn (hout hb)).symm

/-- **The end of a stall**: the time since its begin is waiting time. -/
theorem Timekept.resume (h : s.Timekept) (hpc : s.pc = .resume) (clk : ℤ) :
    ({ s.endStall clk with pc := .test } : Sub).Timekept := by
  have hph : s.pc.phase = .passed := congrArg SubPc.phase hpc
  have hl : s.pc.phase ≠ .loading := fun h => nomatch hph.symm.trans h
  have hturn : s.pc.phase ≠ .out := fun h => nomatch hph.symm.trans h
  have hlast : s.lastTick = s.now := h.behind (by rw [hph]; rfl)
  have hsem : s.sem = 0 := h.unpermitted hturn
  rcases s.endStall_cases clk (h.pid hl) with hs | ⟨hst, hx, hs⟩ | ⟨x, y, r, hst, hx, rfl, -, hs⟩
  · rw [hs]
    exact h.onward s.contextSwitchUntil (by rw [hph]; rfl) hl rfl nofun nofun nofun
  · rw [hs]
    refine ⟨h.tick, h.zero, fun _ => hlast, fun h => (nomatch h), fun h => (nomatch h),
      h.idle, fun _ => hsem, fun h => (nomatch h), fun h => (nomatch h), fun h => (nomatch h),
      fun _ y (hy : s.currProcess = some y) => nomatch hx.symm.trans hy⟩
  · rw [hs]
    obtain ⟨ch, hch, hr⟩ := h.running hl x hx
    obtain ⟨hstop, hhalt⟩ := hr.halted hst
    refine ⟨h.tick, h.zero, fun _ => hlast, fun h => (nomatch h), fun h => (nomatch h),
      fun h => (nomatch h), fun _ => hsem, fun h => (nomatch h), fun h => (nomatch h),
      fun h => (nomatch h), fun _ y hy => ?_⟩
    · obtain rfl := Option.some.inj hy
      refine ⟨{ ch with stopped := false }, by rw [hch]; rfl, hr.pid, hr.left, hr.signalled,
        hr.done, rfl, fun h => (nomatch h), fun h => (nomatch h), fun _ => ?_⟩
      show x.arrival + (if x.lastStopped ≥ 0 then
        x.waitingTime + (s.currentTickTime - x.lastStopped) else x.waitingTime) +
        executed x ch + s.sem = s.now
      rw [if_pos hstop, hsem, h.tick]
      push_cast
      omega

/-- **The next process is taken out of the queue.** -/
theorem Timekept.dequeue (h : s.Timekept) (hpc : s.pc = .dequeue) {q : List PCB}
    {pd : ProcessData} (hpd : 0 ≤ pd.runtime) :
    ({ s with
      currProcess := some (createPCB pd)
      readyQueue := q
      dispatched := s.dispatched ++ [pd.id]
      pc := .count } : Sub).Timekept := by
  have hph : s.pc.phase = .dequeue := congrArg SubPc.phase hpc
  obtain ⟨hch, hfin⟩ := h.idle (h.free hph)
  exact ⟨h.tick, h.zero, fun _ => h.behind (by rw [hph]; rfl),
    fun _ => h.unstalled (by rw [hph]; rfl), fun h => (nomatch h), fun h => (nomatch h),
    fun _ => h.unpermitted fun h => (nomatch hph.symm.trans h), fun _ => childStep_none hch,
    fun _ => hfin, fun _ => ⟨hch, hfin, pd, rfl, hpd⟩, fun h => absurd rfl h⟩

/-- **The next process is started**: until now it has been waiting. -/
theorem Timekept.run (h : s.Timekept) (hpc : s.pc = .run) (hs : s.runProcess clk = .ok s') :
    ({ s' with pc := .clear } : Sub).Timekept := by
  have hph : s.pc.phase = .loading := congrArg SubPc.phase hpc
  obtain ⟨-, hfin, pd, hx, hpd⟩ := h.loading hph
  have hst : s.stalled = false := h.unstalled (by rw [hph]; rfl)
  have hsem : s.sem = 0 := h.unpermitted fun h => nomatch hph.symm.trans h
  obtain ⟨y, r, rfl, -, rfl⟩ := runProcess_createPCB hx hs
  refine ⟨h.tick, h.zero, fun _ => h.behind (by rw [hph]; rfl), fun _ => hst,
    fun h => (nomatch h), fun h => (nomatch h), fun _ => hsem, fun h => (nomatch h),
    fun h => (nomatch h), fun h => (nomatch h), fun _ y hy => ?_⟩
  · obtain rfl := Option.some.inj hy
    refine ⟨_, rfl, show (1 : ℤ) ≠ -1 by decide, hpd, hfin.symm, fun h => (nomatch h), hst.symm,
      fun h => (nomatch hst.symm.trans h), fun h => (nomatch hst.symm.trans h), fun _ => ?_⟩
    show pd.arrival + (s.currentTickTime - pd.arrival) + (pd.runtime - pd.runtime) + s.sem = s.now
    rw [hsem, h.tick]
    push_cast
    omega

/-- **The permit of a tick** moves the edge to its end. -/
theorem Timekept.permit (h : s.Timekept) (hpc : s.pc = .permit) :
    ({ s.permit with pc := .update .bottom } : Sub).Timekept := by
  have hph : s.pc.phase = .permit := congrArg SubPc.phase hpc
  have hl : s.pc.phase ≠ .loading := by simp [hph]
  have hturn : s.pc.phase ≠ .out := by simp [hph]
  have hlast : s.lastTick = s.now := h.behind (by rw [hph]; rfl)
  have hnot : ∀ n, ({ s with sem := n, pc := .update .bottom } : Sub).pc.phase = .out :=
    fun _ => rfl
  rw [Sub.permit]
  split_ifs with hgive
  · refine ⟨h.tick, h.zero, (by rintro ⟨⟩), (by rintro ⟨⟩), (by rintro ⟨⟩),
      h.idle, fun h => absurd (hnot 1) h, (by rintro ⟨⟩), (by rintro ⟨⟩),
      (by rintro ⟨⟩), fun _ x hx => ?_⟩
    · obtain ⟨ch, hch, hr⟩ := h.running hl x hx
      refine ⟨ch, hch, hr.pid, hr.left, hr.signalled, hr.done, hr.stopped, hr.alive, hr.halted,
        fun hst => ?_⟩
      have hsince := hr.since hst
      rw [edge_turn hturn, h.unpermitted hturn] at hsince
      show x.arrival + x.waitingTime + executed x ch + (1 : ℕ) = s.lastTick + 1
      rw [hlast]
      push_cast at hsince ⊢
      omega
  · refine h.goto rfl rfl rfl rfl rfl h.tick h.zero (by rintro ⟨⟩) (by rintro ⟨⟩)
      (by rintro ⟨⟩) (fun h => absurd (hnot s.sem) h) (by rintro ⟨⟩)
      (by rintro ⟨⟩) (iff_of_false (by rintro ⟨⟩) hl) fun x hx hst => ?_
    · refine absurd ⟨?_, ?_⟩ hgive
      · rw [hx]
        rfl
      · rw [hst]
        rfl

/-- **Every step of a sub-scheduler** keeps the accounts. -/
theorem Timekept.moves (h : s.Timekept) (hs : s.Moves clk rem s') (hclk : 0 ≤ clk)
    (hfresh : s.Fresh) (hlast : s.Carries World.Lasting)
    (hp : s.pc = .tick → clk ≠ s.lastTick → s.Prompt clk) : s'.Timekept := by
  -- A step within the phase of `hph`.
  have hin : ∀ {p : SubPc} (hpc : s.pc = p), s'.currProcess = s.currProcess → s'.child = s.child →
      s'.sem = s.sem → s'.stalled = s.stalled → s'.processFinished = s.processFinished →
      s'.currentTickTime = s.currentTickTime → s'.now = s.now → s'.lastTick = s.lastTick →
      s'.pc.phase = p.phase → s'.Timekept :=
    fun hpc hcurr hch hsem hst hfin htick hnow hlast hph =>
      h.within hcurr hch hsem hst hfin htick hnow hlast (hph.trans (congrArg SubPc.phase hpc).symm)
  cases hs with
  | start hpc | turn hpc | quit hpc | remaining hpc | closing hpc | count hpc =>
    exact hin hpc rfl rfl rfl rfl rfl rfl rfl rfl rfl
  | @drained b hpc | @last b pd q hpc | @fetch b pd q hpc | @put b pd hpc =>
    cases b <;> exact hin hpc rfl rfl rfl rfl rfl rfl rfl rfl rfl
  | drop hpc hq => exact hin hpc rfl rfl rfl rfl rfl rfl rfl rfl (congrArg SubPc.phase hpc)
  | @update k hpc => cases k <;> exact hin hpc rfl rfl rfl rfl rfl rfl rfl rfl rfl
  | @total k n r hpc => cases k <;> exact hin hpc rfl rfl rfl rfl rfl rfl rfl rfl rfl
  | old hpc hold =>
    have hph : s.pc.phase = .out := congrArg SubPc.phase hpc
    exact h.goto rfl rfl rfl rfl rfl rfl hclk (fun h => nomatch h) (fun h => nomatch h)
      (fun h => nomatch h) (fun h => absurd rfl h) (fun h => nomatch h) (fun h => nomatch h)
      (iff_of_false nofun fun h => nomatch hph.symm.trans h) fun _ _ _ => (edge_out hph).symm
  | new hpc hnew => exact h.new hpc (hp hpc hnew) hclk
  | running hpc hrun =>
    have hph : s.pc.phase = .finish := congrArg SubPc.phase hpc
    have hturn : s.pc.phase ≠ .out := fun h => nomatch hph.symm.trans h
    exact h.goto rfl rfl rfl rfl rfl h.tick h.zero (fun h => nomatch h) (fun h => nomatch h)
      (fun h => nomatch h) (fun _ => h.unpermitted hturn) (fun _ => h.still (by rw [hph]; rfl))
      (fun _ => hrun) (iff_of_false nofun fun h => nomatch hph.symm.trans h)
      fun _ _ _ => (edge_turn hturn).symm
  | finish hpc hfin hs => exact h.finish hpc hs
  | free hpc h0 => exact h.pass hpc
  | resume hpc => exact h.resume hpc clk
  | idle hpc hmay =>
    have hph : s.pc.phase = .test := congrArg SubPc.phase hpc
    rw [mayDispatch, decide_eq_true_eq] at hmay
    exact h.onward s.contextSwitchUntil (by rw [hph]; rfl) (by rw [hph]; exact nofun) rfl nofun
      (fun _ => by simpa using hmay.2.2.1) nofun
  | busy hpc hmay =>
    have hph : s.pc.phase = .test := congrArg SubPc.phase hpc
    exact h.onward s.contextSwitchUntil (by rw [hph]; rfl) (by rw [hph]; exact nofun) rfl nofun
      nofun nofun
  | choose hpc hcurr hne =>
    have hph : s.pc.phase = .algo := congrArg SubPc.phase hpc
    exact h.onward s.contextSwitchUntil (by rw [hph]; rfl) (by rw [hph]; exact nofun) rfl nofun
      (fun _ => h.unstalled (by rw [hph]; rfl)) fun _ => hcurr
  | skip hpc hno =>
    have hph : s.pc.phase = .algo := congrArg SubPc.phase hpc
    exact h.onward s.contextSwitchUntil (by rw [hph]; rfl) (by rw [hph]; exact nofun) rfl nofun
      (fun _ => h.unstalled (by rw [hph]; rfl)) nofun
  | @dequeue x q hpc hq =>
    obtain ⟨pd, rfl⟩ := hfresh x (hq ▸ List.mem_cons_self)
    have hpd : World.Lasting (createPCB pd).job := hlast.ready _ (hq ▸ List.mem_cons_self)
    exact h.dequeue hpc hpd
  | run hpc hs => exact h.run hpc hs
  | clear hpc =>
    have hph : s.pc.phase = .clear := congrArg SubPc.phase hpc
    exact h.onward (-1) (by rw [hph]; rfl) (by rw [hph]; exact nofun) rfl nofun nofun nofun
  | permit hpc => exact h.permit hpc

/-! ### The handlers -/

/-- **`stall_sig`**: a stall is extended, or begins with no process running, or the running
process is stopped. -/
theorem stallSig_cases (s : Sub) (clk : ℤ) (hpid : ∀ x, s.currProcess = some x → x.pid ≠ -1) :
    ∃ y l ch v rcv, s.stallSig clk = { s with
        currProcess := y
        log := l
        child := ch
        stalled := true
        sigusr2 := false
        readyQueue := s.readyToSteal
        arrived := s.arrived ++ (news s.msgq).map ProcessData.id
        receivingProcesses := rcv
        perf := v
        msgq := left s.msgq
        stallEndTime := clk + 3 } ∧
      (((s.stalled = true ∨ s.currProcess = none) ∧ y = s.currProcess ∧ l = s.log ∧ ch = s.child) ∨
      ∃ x r, s.stalled = false ∧ s.currProcess = some x ∧ y = some { x with
          lastStopped := clk, state := .W, remainingTime := s.shmRT, lState := .stop } ∧
        r.lState = .stop ∧ l = s.log ++ [r] ∧
        ch = s.child.map fun c => { c with stopped := true }) := by
  have hkeep : s.stalled = true ∨ s.currProcess = none → s.stallCurrent clk = s := by
    intro h
    rw [stallCurrent]
    rcases h with hst | hcurr
    · split
      · rfl
      · next x hx =>
        refine if_neg fun hc => ?_
        rw [hst] at hc
        exact absurd (hc.1) (by simp)
    · rw [hcurr]
  cases hst : s.stalled with
  | true =>
    obtain ⟨v, r, h⟩ := stallSig_of (hkeep (Or.inl hst))
    exact ⟨_, _, _, v, r, h, Or.inl ⟨Or.inl rfl, rfl, rfl, rfl⟩⟩
  | false =>
    cases hcurr : s.currProcess with
    | none =>
      obtain ⟨v, r, h⟩ := stallSig_of (hkeep (Or.inr hcurr))
      exact ⟨_, _, _, v, r, h, Or.inl ⟨Or.inr rfl, hcurr, rfl, rfl⟩⟩
    | some x =>
      have hc : s.stallCurrent clk =
          let y := { x with
            lastStopped := clk, state := .W, remainingTime := s.shmRT, lState := .stop }
          { s with
            currProcess := some y
            log := s.log ++ [RRState.lineOf y clk]
            child := s.child.map fun c => { c with stopped := true } } := by
        rw [stallCurrent, hcurr]
        exact if_pos ⟨by rw [hst]; rfl, hpid x hcurr⟩
      obtain ⟨v, r, h⟩ := stallSig_of hc
      exact ⟨_, _, _, v, r, h, Or.inr ⟨x, _, rfl, rfl, rfl, rfl, rfl, rfl⟩⟩

/-- **A stall at the gate**, in the iteration for the tick the clock shows: the accounts up to its
begin are closed. -/
theorem Timekept.stallSig (h : s.Timekept) (hpc : s.pc = .gate) (hclk : clk = s.now) :
    (s.stallSig clk).Timekept := by
  have hph : s.pc.phase = .gate := congrArg SubPc.phase hpc
  have hl : s.pc.phase ≠ .loading := fun h => nomatch hph.symm.trans h
  have hturn : s.pc.phase ≠ .out := fun h => nomatch hph.symm.trans h
  have hno : ∀ {p : Phase}, p ≠ .gate → s.pc.phase ≠ p := fun hp h => hp (h.symm.trans hph)
  have hdisp : s.pc.phase.dispatching ≠ true := by
    rw [hph]
    exact nofun
  have hfin : s.processFinished = false := h.handled hph
  obtain ⟨y, l, ch, v, rcv, hs, ⟨hkeep, rfl, rfl, rfl⟩ | ⟨x, r, hst, hx, rfl, -, rfl, rfl⟩⟩ :=
    s.stallSig_cases clk (h.pid hl)
  · rw [hs]
    refine ⟨h.tick, h.zero, h.behind, fun hd => absurd hd hdisp, h.free, h.idle, h.unpermitted,
      fun hf => childStep_congr (s := s) rfl rfl (h.still hf), h.handled, h.loading,
        fun _ x hx => ?_⟩
    rcases hkeep with hst | hnone
    · obtain ⟨ch, hch, hr⟩ := h.running hl x hx
      exact ⟨ch, hch, hr.congr rfl hst.symm rfl rfl⟩
    · exact nomatch hx.symm.trans hnone
  · obtain ⟨ch, hch, hr⟩ := h.running hl x hx
    have hsince := hr.since hst
    rw [edge_turn hturn, h.unpermitted hturn] at hsince
    have hstopped : s.child.map (fun c => { c with stopped := true }) =
        some { ch with stopped := true } := by
      rw [hch]
      rfl
    rw [hs]
    refine ⟨h.tick, h.zero, h.behind, fun hd => absurd hd hdisp, fun hd => absurd hd (hno nofun),
      fun hn => (nomatch hn), h.unpermitted, fun _ => childStep_stopped hstopped rfl, h.handled,
      fun hload => absurd hload hl, fun _ z hz => ?_⟩
    obtain rfl := Option.some.inj hz
    refine ⟨_, hstopped, hr.pid, hr.left, hr.signalled, hr.done, rfl, fun _ => hfin,
      fun _ => ⟨hclk ▸ h.zero, ?_⟩, fun hf => (nomatch hf)⟩
    show x.arrival + x.waitingTime + executed x ch = clk
    rw [hclk]
    push_cast at hsince
    omega

/-! ### The log -/

/-- **Every finished process has its line in the log**, and from its arrival to its finish it was
waiting or executing. -/
structure Logged (s : Sub) : Prop where
  lines : ∀ r ∈ s.log, r.lState = .finish →
    r.time - r.arrival = r.waiting + r.runtime ∧ r.ta = some (r.waiting + r.runtime)
  finished : (s.log.filter fun r => r.lState = .finish).map LogLine.id = s.finished

theorem Logged.of_eq (h : s.Logged) (hl : s'.log = s.log) (hf : s'.finished = s.finished) :
    s'.Logged := by
  constructor
  · rw [hl]
    exact h.lines
  · rw [hl, hf]
    exact h.finished

/-- A line about something else. -/
theorem Logged.concat (h : s.Logged) {r : LogLine} (hr : r.lState ≠ .finish)
    (hl : s'.log = s.log ++ [r]) (hf : s'.finished = s.finished) : s'.Logged := by
  refine ⟨fun t ht hst => ?_, ?_⟩
  · rw [hl] at ht
    rcases List.mem_append.mp ht with ht | ht
    · exact h.lines t ht hst
    · exact absurd (List.mem_singleton.mp ht ▸ hst) hr
  · have hnil : ([r].filter fun r => r.lState = .finish) = [] :=
      List.filter_eq_nil_iff.mpr fun t ht => by simpa [List.mem_singleton.mp ht] using hr
    rw [hl, List.filter_append, hnil, List.append_nil, hf]
    exact h.finished

/-- The line of a process that is finished. -/
theorem Logged.finish (h : s.Logged) {r : LogLine} (hr : r.lState = .finish)
    (htime : r.time - r.arrival = r.waiting + r.runtime)
    (hta : r.ta = some (r.waiting + r.runtime))
    (hl : s'.log = s.log ++ [r]) (hf : s'.finished = s.finished ++ [r.id]) : s'.Logged := by
  refine ⟨fun t ht hst => ?_, ?_⟩
  · rw [hl] at ht
    rcases List.mem_append.mp ht with ht | ht
    · exact h.lines t ht hst
    · obtain rfl := List.mem_singleton.mp ht
      exact ⟨htime, hta⟩
  · have hself : ([r].filter fun r => r.lState = .finish) = [r] :=
      List.filter_eq_self.mpr fun t ht => decide_eq_true (List.mem_singleton.mp ht ▸ hr)
    rw [hl, List.filter_append, hself, List.map_append, h.finished, hf, List.map_singleton]

theorem Logged.moves (h : s.Logged) (ht : s.Timekept) (hs : s.Moves clk rem s') : s'.Logged := by
  cases hs with
  | finish hpc hfin hs =>
    obtain ⟨x, r, p, hx, rfl, rfl⟩ := finishLogic_cases hs
    have heq := ht.finish_eq hpc hfin hx
    have hset : s.currentTickTime ≠ -1 := by
      have hzero := ht.zero
      rw [ht.tick]
      omega
    refine h.finish rfl ?_ ?_ rfl rfl
    · rw [RRState.lineOf, if_pos ⟨rfl, hset⟩]
      exact heq
    · rw [RRState.lineOf, if_pos rfl]
      exact congrArg some heq
  | resume hpc =>
    have hl : s.pc.phase ≠ .loading := by
      rw [hpc]
      exact nofun
    rcases s.endStall_cases clk (ht.pid hl) with hs | ⟨-, -, hs⟩ | ⟨x, y, r, -, -, -, hr, hs⟩
    · rw [hs]
      exact h.of_eq rfl rfl
    · rw [hs]
      exact h.of_eq rfl rfl
    · rw [hs]
      exact h.concat (by rw [hr]; exact nofun) rfl rfl
  | run hpc hs =>
    obtain ⟨-, -, pd, hx, -⟩ := ht.loading (congrArg SubPc.phase hpc)
    obtain ⟨y, r, -, hr, rfl⟩ := runProcess_createPCB hx hs
    exact h.concat (by rw [hr]; exact nofun) rfl rfl
  | permit hpc =>
    obtain ⟨n, hs⟩ := s.permit_eq
    rw [hs]
    exact h.of_eq rfl rfl
  | _ => exact h.of_eq rfl rfl

end Sub

namespace World

open TransitionSystem

variable {P : Params} {w w' : World} {c : Cpu} {e : Event} {s : Sub}

/-! ### The runs -/

/-- **In its tick**: an iteration of the sub-scheduler for a new tick begins when the child has done
what it can, with no tick left out while a process is running; and `SIGUSR2` comes while the
sub-scheduler waits at the gate, in the iteration for the tick the clock shows. -/
def InTick (c : Cpu) (w : World) : Event → Prop
  | .sub d => d = c → (w.sub c).pc = .tick → w.clock ≠ (w.sub c).lastTick → (w.sub c).Prompt w.clock
  | .stall d => d = c → (w.sub c).pc = .gate ∧ w.clock = (w.sub c).now
  | _ => True

/-- What is kept in these runs. -/
structure Stalls (c : Cpu) (w : World) : Prop where
  clock : 0 ≤ w.clock
  timekept : (w.sub c).Timekept
  logged : (w.sub c).Logged

/-- **Everything that can happen to the sub-scheduler** in its tick keeps the accounts. -/
theorem Happens.timekept (h : Happens w c e s) (hs : w.Stalls c) (hf : (w.sub c).Fresh)
    (hl : (w.sub c).Carries Lasting) (hin : w.InTick c e) : s.Timekept ∧ s.Logged := by
  obtain ⟨hclk, ht, hlog⟩ := hs
  cases h with
  | reached hs =>
    obtain ⟨q, u, v, rfl⟩ := hs
    exact ⟨ht.within rfl rfl rfl rfl rfl rfl rfl rfl rfl, hlog.of_eq rfl rfl⟩
  | own hs => exact ⟨ht.moves hs hclk hf hl fun hpc hnew => hin rfl hpc hnew, hlog.moves ht hs⟩
  | pass hpc h0 hgate => exact ⟨ht.pass hpc, hlog.of_eq rfl rfl⟩
  | @write k n t hpc =>
    refine ⟨ht.within rfl rfl rfl rfl rfl rfl rfl rfl ?_, hlog.of_eq rfl rfl⟩
    rw [hpc]
    cases k <;> rfl
  | ack hpc =>
    refine ⟨ht.within rfl rfl rfl rfl rfl rfl rfl rfl ?_, hlog.of_eq rfl rfl⟩
    rw [hpc]
    rfl
  | steal hsig hpc =>
    rcases (w.sub c).stealHandler_cases w.clock with ⟨-, v, r, hs⟩ | ⟨x, q, -, v, r, hs⟩
    · rw [hs]
      exact ⟨ht.within rfl rfl rfl rfl rfl rfl rfl rfl rfl, hlog.of_eq rfl rfl⟩
    · rw [hs]
      exact ⟨ht.within rfl rfl rfl rfl rfl rfl rfl rfl rfl,
        hlog.concat (show LogState.stolen ≠ .finish from nofun) rfl rfl⟩
  | stall hsig hpc =>
    obtain ⟨hgate, hclk⟩ := hin rfl
    have hl : (w.sub c).pc.phase ≠ .loading := by
      rw [hgate]
      exact nofun
    refine ⟨ht.stallSig hgate hclk, ?_⟩
    obtain ⟨y, l, ch, v, rcv, hs, ⟨-, -, rfl, -⟩ | ⟨x, r, -, -, -, hr, rfl, -⟩⟩ :=
      (w.sub c).stallSig_cases w.clock (ht.pid hl)
    · rw [hs]
      exact hlog.of_eq rfl rfl
    · rw [hs]
      exact hlog.concat (by rw [hr]; exact nofun) rfl rfl
  | child hs =>
    refine ⟨ht.childStep hs, ?_⟩
    obtain ⟨fin, sem, rt, ch, rfl⟩ := Sub.childStep_eq_some hs
    exact hlog.of_eq rfl rfl

/-- The clock does not go back. -/
theorem Steps.clock_le (h : Steps P w e w') : w.clock ≤ w'.clock := by
  cases h with
  | tick => exact Int.le_add_one le_rfl
  | main hm => cases hm <;> exact le_rfl
  | sub hs => cases hs <;> exact le_rfl
  | _ => exact le_rfl

theorem start_stalls (l : List ProcessData) (c : Cpu) : (start l).Stalls c where
  clock := le_rfl
  timekept := ⟨rfl, le_rfl, fun h => (nomatch h), fun h => (nomatch h), fun h => (nomatch h),
    fun _ => ⟨rfl, rfl⟩, fun _ => rfl, fun h => (nomatch h), fun h => (nomatch h),
    fun h => (nomatch h), fun _ x (hx : none = some x) => nomatch hx⟩
  logged := ⟨List.forall_mem_nil _, rfl⟩

theorem reachable_stalls (h : (systemIf P (InTick c)).Reachable w) : w.Stalls c := by
  refine (h.invariant (P := fun w => (system P).Reachable w ∧ w.Stalls c) ?_ ?_).2
  · rintro _ ⟨l, hl, rfl⟩
    exact ⟨.init ⟨l, hl, rfl⟩, start_stalls l c⟩
  · rintro w w' ⟨hw, hs⟩ ⟨e, h, hin⟩
    have hstep := next_cases h
    obtain ⟨ht, hlog⟩ := (hstep.happens c).timekept hs (reachable_fresh hw c)
      ((reachable_lasting hw).subs c) hin
    exact ⟨.step hw ⟨e, h⟩, hs.clock.trans hstep.clock_le, ht, hlog⟩

/-- **The accounts under stalls.** During a stall the child of the sub-scheduler can make no step,
and every process that the sub-scheduler has finished has its line in the log, by which it was
waiting or executing from its arrival to its finish. -/
theorem accounted_of_inTick (h : (systemIf P (InTick c)).Reachable w) :
    ((w.sub c).stalled = true → w.next P (.child c) = none) ∧
    ((w.sub c).log.filter fun r => r.lState = .finish).map LogLine.id = (w.sub c).finished ∧
    ∀ r ∈ (w.sub c).log, r.lState = .finish →
      r.time - r.arrival = r.waiting + r.runtime ∧ r.ta = some (r.waiting + r.runtime) := by
  obtain ⟨-, ht, hlog⟩ := reachable_stalls h
  refine ⟨fun hst => ?_, hlog.finished, hlog.lines⟩
  rw [next, ht.childStep_eq_none hst]
  rfl

/-! ### An explicit run -/

instance (w : World) (c : Cpu) (e : Event) : Decidable (w.InTick c e) :=
  match e with
  | .sub d => inferInstanceAs (Decidable (d = c → _ → _ → _ ∧ _ ∧ (_ ∨ _ ∨ _)))
  | .stall d => inferInstanceAs (Decidable (d = c → _ ∧ _))
  | .tick | .main | .steal _ | .child _ | .observe | .send | .sync | .last =>
    inferInstanceAs (Decidable True)

/-- The next state, if the step meets the condition. -/
def nextInTick (P : Params) (c : Cpu) (w : World) (e : Event) : Option World :=
  if w.InTick c e then w.next P e else none

theorem nextInTick_step (w : World) (e : Event) (w' : World) (h : w.nextInTick P c e = some w') :
    (systemIf P (InTick c)).step w w' := by
  rw [nextInTick] at h
  split_ifs at h with hin
  exact ⟨e, h, hin⟩

/-- Three processes that arrive at tick 1: the first CPU gets the first and the last one. -/
def uneven : List ProcessData :=
  [{ soleProcess 0 with id := 7, runtime := 3 }, { soleProcess 0 with id := 8, runtime := 1 },
    { soleProcess 0 with id := 9, runtime := 1 }]

theorem workload_uneven : CpuScheduler.World.Workload uneven where
  mtype := by decide
  runtime := by decide
  ids := by decide

/-- The first process executes at tick 1. At tick 2 the last one is stolen, and both CPUs are
stalled up to tick 5, from which on the first process executes again. -/
def stallRun : List Event := List.flatten
  [[.tick, .observe, .send, .send, .send, .sync, .last], List.replicate 15 .main,
    List.replicate 25 (.sub .one), [.child .one, .tick], List.replicate 4 (.sub .one),
    List.replicate 7 .main, [.steal .one], List.replicate 5 .main,
    [.stall .one, .tick, .tick, .tick, .main, .main], List.replicate 13 (.sub .one),
    List.replicate 10 .main, List.replicate 9 (.sub .one), [.child .one, .tick],
    List.replicate 4 (.sub .one), List.replicate 7 .main, List.replicate 9 (.sub .one),
    [.child .one, .child .one, .tick], List.replicate 4 (.sub .one)]

/-- The process is stalled in between, and is finished at tick 7. -/
theorem accounted_of_inTick_uneven : ∃ w,
    playAll (nextInTick { N := 2, M := 1 } .one) (start uneven) stallRun = some w ∧
    (w.sub .one).finished = [7] ∧
    ((w.sub .one).log.filter fun r => r.lState = .finish).map LogLine.id = (w.sub .one).finished ∧
    ∀ r ∈ (w.sub .one).log, r.lState = .finish →
      r.time - r.arrival = r.waiting + r.runtime ∧ r.ta = some (r.waiting + r.runtime) := by
  have hrun : (playAll (nextInTick { N := 2, M := 1 } .one) (start uneven) stallRun).map
      (fun w => (w.sub .one).finished) = some [7] := by
    decide +kernel
  obtain ⟨w, hw, hfin⟩ := Option.map_eq_some_iff.mp hrun
  have hstart : (systemIf { N := 2, M := 1 } (InTick .one)).Reachable (start uneven) :=
    .init ⟨_, workload_uneven, rfl⟩
  exact ⟨w, hw, hfin, (accounted_of_inTick (hstart.playAll nextInTick_step hw)).2⟩

end World

end Dual

end CpuScheduler
