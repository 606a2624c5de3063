import CpuScheduler.Hpf.Order

/-!
# The children of HPF

A process that has been dispatched has a child, and keeps it until it is let go of
(`CpuScheduler.Hpf.State.Forked`). When the children are prompt and a turn takes no longer than
its tick (`CpuScheduler.Hpf.World.Paced`), the clock is known at every cut
(`CpuScheduler.Hpf.State.Timed`), and so is what each child is doing
(`CpuScheduler.Hpf.State.Attended`): the child of the running process holds the remaining time
that is in the shared cell, all others are stopped with the remaining time of their PCBs, and a
permit that has been given is used up before the clock goes on.
-/

namespace CpuScheduler

namespace Hpf

variable {s s' : State} {clk pid : ℤ} {x y : PCB} {c : Dual.Child}

namespace State

/-! ### The pids -/

/-- The pids of the processes that have been dispatched. -/
def pids (s : State) : List ℤ := (s.pcbs.map PCB.pid).filter fun p => p ≠ -1

/-- **Each process that has been dispatched has a pid of its own.** -/
structure Forked (s : State) : Prop where
  once : s.pids.Nodup
  range : ∀ p ∈ s.pids, 0 < p ∧ p ≤ s.forks
  started : ∀ x, s.currProcess = some x → x.pid ≠ -1
  ended : ∀ x ∈ s.finished, x.pid ≠ -1
  known : ∀ e ∈ s.executed, 0 < e.1 ∧ e.1 ≤ s.forks
  children : ∀ p c, s.child p = some c → 0 < p ∧ p ≤ s.forks
  forks : 0 ≤ s.forks

theorem mem_pids (hy : y ∈ s.pcbs) (hp : y.pid ≠ -1) : y.pid ∈ s.pids :=
  List.mem_filter.mpr ⟨List.mem_map_of_mem hy, decide_eq_true hp⟩

theorem mem_pcbs_of_ready (hy : y ∈ s.readyQueue) : y ∈ s.pcbs :=
  List.mem_append_left _ (List.mem_append_right _ hy)

theorem mem_pcbs_of_curr (hx : s.currProcess = some x) : x ∈ s.pcbs := by
  refine List.mem_append_left _ (List.mem_append_left _ ?_)
  rw [hx]
  exact List.mem_cons_self

theorem pids_perm (h : (s'.pcbs.map PCB.pid).Perm (s.pcbs.map PCB.pid)) : s'.pids.Perm s.pids :=
  h.filter _

/-- The running process and another one have different pids. -/
theorem Forked.ne_curr (h : Forked s) (hx : s.currProcess = some x)
    (hy : y ∈ s.readyQueue ++ s.finished) : y.pid ≠ x.pid := by
  intro he
  have hp := h.started x hx
  have hpids : s.pids = x.pid :: ((s.readyQueue ++ s.finished).map PCB.pid).filter
      fun p => p ≠ -1 := by
    rw [pids, pcbs, hx, List.append_assoc, Option.toList_some, List.singleton_append,
      List.map_cons, List.filter_cons_of_pos (by simpa using hp)]
  have honce := h.once
  rw [hpids] at honce
  refine (List.nodup_cons.mp honce).1 (List.mem_filter.mpr ⟨?_, by simpa using hp⟩)
  exact he ▸ List.mem_map_of_mem hy

/-- The first process that is ready and another one do, too. -/
theorem Forked.ne_front (h : Forked s) {q : List PCB} (hq : s.readyQueue = x :: q)
    (hp : x.pid ≠ -1) (hy : y ∈ q ++ s.finished) : y.pid ≠ x.pid := by
  intro he
  have hperm : s.pids.Perm (x.pid :: ((s.currProcess.toList ++ (q ++ s.finished)).map
      PCB.pid).filter fun p => p ≠ -1) := by
    have hpcbs : s.pcbs.Perm (x :: (s.currProcess.toList ++ (q ++ s.finished))) := by
      rw [pcbs, hq, List.append_assoc, List.cons_append]
      exact List.perm_middle
    have := (hpcbs.map PCB.pid).filter fun p => p ≠ -1
    rwa [List.map_cons, List.filter_cons_of_pos (by simpa using hp)] at this
  have honce := hperm.nodup_iff.mp h.once
  refine (List.nodup_cons.mp honce).1 (List.mem_filter.mpr ⟨?_, by simpa using hp⟩)
  exact he ▸ List.mem_map_of_mem (List.mem_append_right _ hy)

/-- The pids after a move. -/
theorem Moves.pids (hm : Moves clk s s') (hforks : 0 ≤ s.forks) :
    (s'.pids.Perm s.pids ∧ s'.forks = s.forks) ∨
      (s'.pids.Perm ((s.forks + 1) :: s.pids) ∧ s'.forks = s.forks + 1) := by
  cases hm with
  | @arrive msg rest _ _ _ =>
    -- a new process has no child
    have hperm : (s.currProcess.toList ++ Queue.enqueuePriority s.readyQueue (createPCB msg) ++
        s.finished).Perm (createPCB msg :: s.pcbs) :=
      (((Queue.perm_enqueuePriority s.readyQueue _).append_left _).trans
        List.perm_middle).append_right _
    refine Or.inl ⟨((hperm.map PCB.pid).filter _).trans (List.Perm.of_eq ?_), rfl⟩
    have hpid : (createPCB msg).pid = -1 := rfl
    exact List.filter_cons_of_neg (by rw [hpid]; decide)
  | @reap x _ hx _ _ =>
    refine Or.inl ⟨pids_perm ?_, rfl⟩
    rw [pcbs, pcbs, hx, ← List.append_assoc, List.map_append]
    have hlast : ((s.readyQueue ++ s.finished ++ [reaped x clk s.shmRT]).map PCB.pid).Perm
        ((x :: (s.readyQueue ++ s.finished)).map PCB.pid) := by
      rw [List.map_append]
      exact List.perm_append_singleton _ _
    simpa using hlast
  | preempt _ hx _ _ =>
    refine Or.inl ⟨pids_perm ?_, rfl⟩
    rw [pcbs, pcbs, hx]
    rfl
  | @dispatch x q _ hcurr hq _ =>
    have hpid := dispatched_pid x clk (s.forks + 1)
    have hnew : State.pids { s with
        readyQueue := q, currProcess := some (dispatched x clk (s.forks + 1)) } =
        (((dispatched x clk (s.forks + 1)).pid :: (q ++ s.finished).map PCB.pid).filter
          fun p => p ≠ -1) := by
      rw [State.pids, pcbs, Option.toList_some, List.append_assoc, List.singleton_append,
        List.map_cons]
    have hold : s.pids = ((x.pid :: (q ++ s.finished).map PCB.pid).filter fun p => p ≠ -1) := by
      rw [State.pids, pcbs, hcurr, hq, Option.toList_none, List.nil_append, List.cons_append,
        List.map_cons]
    by_cases hp : x.pid = -1
    · rw [if_pos hp] at hpid ⊢
      refine Or.inr ⟨List.Perm.of_eq (hnew.trans ?_), rfl⟩
      have hne : s.forks + 1 ≠ -1 := by omega
      rw [hold, hpid, List.filter_cons_of_pos (by simpa using hne),
        List.filter_cons_of_neg (by simpa using hp)]
    · rw [if_neg hp] at hpid ⊢
      exact Or.inl ⟨List.Perm.of_eq (hnew.trans (by rw [hold, hpid])), rfl⟩
  | @stop x _ hx _ =>
    refine Or.inl ⟨pids_perm ?_, rfl⟩
    rw [pcbs, pcbs, hx]
    exact ((Queue.perm_enqueuePriority s.readyQueue (stopped x s.shmRT)).append_right
      s.finished).map PCB.pid
  | _ => exact Or.inl ⟨pids_perm (List.Perm.refl _), rfl⟩

/-- **The scheduler keeps the pids apart.** -/
theorem Forked.moves (h : Forked s) (hm : Moves clk s s') : Forked s' := by
  have hpids := hm.pids h.forks
  have hforks : s.forks ≤ s'.forks := by
    rcases hpids with ⟨-, hf⟩ | ⟨-, hf⟩ <;> omega
  have honce : s'.pids.Nodup ∧ ∀ p ∈ s'.pids, 0 < p ∧ p ≤ s'.forks := by
    rcases hpids with ⟨hp, hf⟩ | ⟨hp, hf⟩
    · refine ⟨hp.nodup_iff.mpr h.once, fun p hpm => ?_⟩
      rw [hf]
      exact h.range p (hp.mem_iff.mp hpm)
    · refine ⟨hp.nodup_iff.mpr (List.nodup_cons.mpr ⟨fun hmem => ?_, h.once⟩), fun p hpm => ?_⟩
      · have := (h.range _ hmem).2
        omega
      · have := h.forks
        rcases List.mem_cons.mp (hp.mem_iff.mp hpm) with rfl | hpm
        · omega
        · have := h.range p hpm
          omega
  -- what the other fields need of a move
  have hgo : (∀ x, s'.currProcess = some x → x.pid ≠ -1) → (∀ x ∈ s'.finished, x.pid ≠ -1) →
      s'.executed = s.executed → (∀ p c, s'.child p = some c → 0 < p ∧ p ≤ s'.forks) →
      Forked s' := by
    intro hstart hend hex hchild
    refine ⟨honce.1, honce.2, hstart, hend, fun e he => ?_, hchild, h.forks.trans hforks⟩
    have := h.known e (hex ▸ he)
    omega
  have hold : ∀ p c, s.child p = some c → 0 < p ∧ p ≤ s'.forks := fun p c hc => by
    have := h.children p c hc
    omega
  have hupdate : ∀ (p : ℤ) (o : Option Dual.Child), (∀ c, o = some c → 0 < p ∧ p ≤ s'.forks) →
      ∀ p' c, Function.update s.child p o p' = some c → 0 < p' ∧ p' ≤ s'.forks := by
    intro p o ho p' c hc
    by_cases hp : p' = p
    · rw [hp, Function.update_self] at hc
      exact hp ▸ ho c hc
    · rw [Function.update_of_ne hp] at hc
      exact hold p' c hc
  cases hm with
  | @reap x _ hx _ _ =>
    refine hgo (fun y (hy : none = some y) => nomatch hy) (fun y hy => ?_) rfl
      (hupdate _ _ fun c (hc : none = some c) => nomatch hc)
    rcases List.mem_append.mp hy with hy | hy
    · exact h.ended y hy
    · rw [List.mem_singleton.mp hy]
      exact h.started x hx
  | @preempt x _ _ _ hx _ _ =>
    refine hgo (fun y hy => ?_) h.ended rfl hold
    obtain rfl := Option.some.inj hy
    exact h.started x hx
  | @dispatch x q _ _ hq _ =>
    have hpid := dispatched_pid x clk (s.forks + 1)
    have hin := honce.2 (dispatched x clk (s.forks + 1)).pid
    have h0 := h.forks
    have hne : (dispatched x clk (s.forks + 1)).pid ≠ -1 := by
      rw [hpid]
      split_ifs with hp
      · omega
      · exact hp
    refine hgo (fun y hy => ?_) h.ended rfl (hupdate _ _ fun _ _ => hin ?_)
    · obtain rfl := Option.some.inj hy
      exact hne
    · exact mem_pids (mem_pcbs_of_curr rfl) hne
  | @stop x _ hx _ =>
    refine hgo (fun y (hy : none = some y) => nomatch hy) h.ended rfl
      (hupdate _ _ fun c hc => ?_)
    obtain ⟨c', hc', -⟩ := Option.map_eq_some_iff.mp hc
    exact h.children _ c' hc'
  | _ => exact hgo h.started h.ended rfl hold

theorem Forked.executes (h : Forked s) (he : Executes pid clk s s') : Forked s' := by
  have hupdate : ∀ {c c' : Dual.Child}, s.child pid = some c →
      ∀ p c₁, Function.update s.child pid (some c') p = some c₁ → 0 < p ∧ p ≤ s.forks := by
    intro c c' hc p c₁ hc₁
    by_cases hp : p = pid
    · exact hp ▸ h.children pid c hc
    · rw [Function.update_of_ne hp] at hc₁
      exact h.children p c₁ hc₁
  cases he with
  | exit hc _ _ _ =>
    exact ⟨h.once, h.range, h.started, h.ended, h.known, hupdate hc, h.forks⟩
  | tick hc _ _ _ _ =>
    refine ⟨h.once, h.range, h.started, h.ended, fun e he => ?_, hupdate hc, h.forks⟩
    rcases List.mem_append.mp he with he | he
    · exact h.known e he
    · rw [List.mem_singleton.mp he]
      exact h.children pid _ hc

end State

/-! ### The clock -/

/-- The cuts of a turn, up to the end of `HPF_algo` or its wait. -/
def Pc.inTurn : Pc → Bool
  | .finish | .reap | .gate | .receive | .algo | .stop | .waitStart => true
  | _ => false

namespace State

/-- **What the clock shows**, cut by cut. -/
structure Timed (clk : ℤ) (s : State) : Prop where
  turn : s.pc.inTurn = true → clk = s.now ∧ s.lastTick = s.now
  wait : ∀ c, s.pc = .wait c → c = s.now + 1 ∧ s.lastTick = s.now ∧ s.now ≤ clk ∧
    clk ≤ s.now + 1 ∧ s.currProcess = none
  permit : s.pc = .permit → s.lastTick = s.now ∧
    (clk = s.now ∨ (clk = s.now + 1 ∧ s.currProcess = none))
  top : s.pc = .top → (s.lastTick = -1 ∧ s.currProcess = none) ∨
    (s.lastTick = s.now ∧ (clk = s.now ∨ clk = s.now + 1))
  nonneg : 0 ≤ clk
  tick : 0 ≤ s.now
  /-- There is no context switch behind the gate, nor while a process runs. -/
  running : s.currProcess ≠ none → s.contextSwitchUntil = -1
  behind : s.pc = .receive ∨ s.pc = .algo → s.contextSwitchUntil = -1
  stopping : s.pc = .reap ∨ s.pc = .stop → s.currProcess ≠ none

/-- A move within a turn. -/
theorem Timed.inTurn (h : Timed clk s) (hin : s.pc.inTurn = true) (hin' : s'.pc.inTurn = true)
    (hnow : s'.now = s.now) (hlast : s'.lastTick = s.lastTick)
    (hrun : s'.currProcess ≠ none → s'.contextSwitchUntil = -1)
    (hbehind : s'.pc = .receive ∨ s'.pc = .algo → s'.contextSwitchUntil = -1)
    (hstop : s'.pc = .reap ∨ s'.pc = .stop → s'.currProcess ≠ none) : Timed clk s' where
  turn _ := by rw [hnow, hlast]; exact h.turn hin
  wait c hc := by rw [hc] at hin'; exact nomatch hin'
  permit hc := by rw [hc] at hin'; exact nomatch hin'
  top hc := by rw [hc] at hin'; exact nomatch hin'
  nonneg := h.nonneg
  tick := by rw [hnow]; exact h.tick
  running := hrun
  behind := hbehind
  stopping := hstop

/-- A move out of a turn, to its end. -/
theorem Timed.toPermit (h : Timed clk s) (hin : s.pc.inTurn = true) (hpc : s'.pc = .permit)
    (hnow : s'.now = s.now) (hlast : s'.lastTick = s.lastTick)
    (hrun : s'.currProcess ≠ none → s'.contextSwitchUntil = -1) : Timed clk s' where
  turn hc := by rw [hpc] at hc; exact nomatch hc
  wait c hc := by rw [hpc] at hc; exact nomatch hc
  permit _ := by
    obtain ⟨hclk, hl⟩ := h.turn hin
    rw [hlast, hnow]
    exact ⟨hl, Or.inl hclk⟩
  top hc := by rw [hpc] at hc; exact nomatch hc
  nonneg := h.nonneg
  tick := by rw [hnow]; exact h.tick
  running := hrun
  behind hc := by
    rw [hpc] at hc
    rcases hc with hc | hc <;> exact nomatch hc
  stopping hc := by
    rw [hpc] at hc
    rcases hc with hc | hc <;> exact nomatch hc

/-- **The scheduler does not wait for the clock**, except in `wait_N_secs`. -/
theorem Timed.moves (h : Timed clk s) (hr : Ranked s) (hm : Moves clk s s') :
    Timed clk s' := by
  have hnot : ∀ {pc : Pc}, s'.pc = pc → pc ≠ .reap ∧ pc ≠ .stop →
      s'.pc = .reap ∨ s'.pc = .stop → s'.currProcess ≠ none := by
    rintro pc hpc ⟨h1, h2⟩ (hc | hc)
    · exact absurd (hpc.symm.trans hc) h1
    · exact absurd (hpc.symm.trans hc) h2
  -- behind the loop that receives processes
  have hbehind : s.pc.inTurn = true → s'.pc = behindReceive s.now → s'.now = s.now →
      s'.lastTick = s.lastTick → s'.contextSwitchUntil = -1 → Timed clk s' := by
    intro hin hpc hnow hlast hcsu
    rcases behindReceive_cases s.now with ⟨-, hb⟩ | ⟨-, hb⟩
    · exact h.inTurn hin (by rw [hpc, hb]; rfl) hnow hlast (fun _ => hcsu) (fun _ => hcsu)
        (hnot (hpc.trans hb) ⟨nofun, nofun⟩)
    · exact h.toPermit hin (hpc.trans hb) hnow hlast fun _ => hcsu
  cases hm with
  | leave hpc hgo =>
    have hnone : s.currProcess = none := by
      cases hc : s.currProcess with
      | none => rfl
      | some x =>
        rw [goesOn, hc] at hgo
        simp at hgo
    exact ⟨nofun, nofun, nofun, nofun, h.nonneg, h.tick, fun hc => absurd hnone hc,
      (by rintro (hc | hc) <;> exact nomatch hc), by rintro (hc | hc) <;> exact nomatch hc⟩
  | spin hpc hgo hold => exact h
  | begin hpc hgo hnew =>
    exact ⟨fun _ => ⟨rfl, rfl⟩, nofun, nofun, nofun, h.nonneg, h.nonneg, h.running,
      (by rintro (hc | hc) <;> exact nomatch hc), by rintro (hc | hc) <;> exact nomatch hc⟩
  | running hpc hno =>
    exact h.inTurn (by rw [hpc]; rfl) rfl rfl rfl h.running
      (by rintro (hc | hc) <;> exact nomatch hc) (hnot rfl ⟨nofun, nofun⟩)
  | @signalled x hpc hx hsig =>
    refine h.inTurn (by rw [hpc]; rfl) rfl rfl rfl h.running
      (by rintro (hc | hc) <;> exact nomatch hc) fun _ => ?_
    rw [hx]
    exact Option.some_ne_none x
  | reap hpc hx hchild l =>
    exact h.inTurn (by rw [hpc]; rfl) rfl rfl rfl (fun hc => absurd rfl hc)
      (by rintro (hc | hc) <;> exact nomatch hc) (hnot rfl ⟨nofun, nofun⟩)
  | closed hpc hcsu hnow =>
    obtain ⟨hclk, hl⟩ := h.turn (by rw [hpc]; rfl)
    exact ⟨nofun, nofun, nofun, fun _ => Or.inr ⟨hl, Or.inl hclk⟩, h.nonneg, h.tick, h.running,
      (by rintro (hc | hc) <;> exact nomatch hc), by rintro (hc | hc) <;> exact nomatch hc⟩
  | listen hpc hcsu hrec =>
    exact h.inTurn (by rw [hpc]; rfl) rfl rfl rfl (fun _ => rfl) (fun _ => rfl)
      (hnot rfl ⟨nofun, nofun⟩)
  | skip hpc hcsu hrec => exact hbehind (by rw [hpc]; rfl) rfl rfl rfl rfl
  | arrive hpc hrcv h1 =>
    exact h.inTurn (by rw [hpc]; rfl) (by rw [hpc]; rfl) rfl rfl h.running
      (fun _ => h.behind (Or.inl hpc)) (hnot hpc ⟨nofun, nofun⟩)
  | sync hpc hrcv h2 hnew =>
    exact hbehind (by rw [hpc]; rfl) rfl rfl rfl (h.behind (Or.inl hpc))
  | last hpc hrcv h5 => exact hbehind (by rw [hpc]; rfl) rfl rfl rfl (h.behind (Or.inl hpc))
  | drop hpc hrcv h1 =>
    exact h.inTurn (by rw [hpc]; rfl) (by rw [hpc]; rfl) rfl rfl h.running
      (fun _ => h.behind (Or.inl hpc)) (hnot hpc ⟨nofun, nofun⟩)
  | idle hpc hrun hnone => exact h.toPermit (by rw [hpc]; rfl) rfl rfl rfl h.running
  | preempt hpc hx hq hlt =>
    exact h.inTurn (by rw [hpc]; rfl) rfl rfl rfl (fun _ => h.behind (Or.inr hpc))
      (by rintro (hc | hc) <;> exact nomatch hc) fun _ => Option.some_ne_none _
  | dispatch hpc hcurr hq l =>
    exact h.toPermit (by rw [hpc]; rfl) rfl rfl rfl fun _ => h.behind (Or.inr hpc)
  | stop hpc hx l =>
    exact h.inTurn (by rw [hpc]; rfl) rfl rfl rfl (fun hc => absurd rfl hc)
      (by rintro (hc | hc) <;> exact nomatch hc) (hnot rfl ⟨nofun, nofun⟩)
  | waitStart hpc =>
    obtain ⟨hclk, hl⟩ := h.turn (by rw [hpc]; rfl)
    have hnone := hr.waiting (Or.inl hpc)
    refine ⟨nofun, fun c hc => ?_, nofun, nofun, h.nonneg, h.tick, h.running,
      (by rintro (hc | hc) <;> exact nomatch hc), by rintro (hc | hc) <;> exact nomatch hc⟩
    obtain rfl := Pc.wait.inj hc
    refine ⟨?_, hl, ?_, ?_, hnone⟩
    · rw [hclk]
    · exact hclk.ge
    · show clk ≤ s.now + 1
      omega
  | @waited c hpc hc =>
    obtain ⟨rfl, hl, hge, hle, hnone⟩ := h.wait c hpc
    refine ⟨nofun, nofun, fun _ => ⟨hl, Or.inr ⟨?_, hnone⟩⟩, nofun, h.nonneg, h.tick, h.running,
      (by rintro (hc | hc) <;> exact nomatch hc), by rintro (hc | hc) <;> exact nomatch hc⟩
    show clk = s.now + 1
    omega
  | permit hpc =>
    obtain ⟨hl, hclk⟩ := h.permit hpc
    exact ⟨nofun, nofun, nofun, fun _ => Or.inr ⟨hl, hclk.imp_right And.left⟩, h.nonneg, h.tick,
      h.running, (by rintro (hc | hc) <;> exact nomatch hc),
      by rintro (hc | hc) <;> exact nomatch hc⟩

/-- The children do not move the scheduler. -/
theorem Timed.executes (h : Timed clk s) (he : Executes pid clk s s') : Timed clk s' := by
  cases he with
  | exit _ _ _ _ =>
    exact ⟨h.turn, h.wait, h.permit, h.top, h.nonneg, h.tick, h.running, h.behind, h.stopping⟩
  | tick _ _ _ _ _ =>
    exact ⟨h.turn, h.wait, h.permit, h.top, h.nonneg, h.tick, h.running, h.behind, h.stopping⟩

/-- The clock goes on behind a turn, and in `wait_N_secs`. -/
theorem Timed.goesOn (h : Timed clk s)
    (hcase : (s.pc = .top ∧ (clk = s.lastTick ∨ s.lastTick = -1)) ∨
      (∃ c, s.pc = .wait c ∧ clk < c) ∨ s.pc = .exited) : Timed (clk + 1) s := by
  have h0 := h.nonneg
  have hn := h.tick
  have hout : s.pc.inTurn = false ∧ s.pc ≠ .permit := by
    rcases hcase with ⟨hpc, -⟩ | ⟨c, hpc, -⟩ | hpc <;> rw [hpc] <;> exact ⟨rfl, nofun⟩
  refine ⟨(fun hin => nomatch hout.1.symm.trans hin), fun c hc => ?_, fun hc => absurd hc hout.2,
    fun hc => ?_, by omega, hn, h.running, h.behind, h.stopping⟩
  · obtain ⟨hcn, hl, hge, hle, hnone⟩ := h.wait c hc
    rcases hcase with ⟨hpc, -⟩ | ⟨c', hpc, hlt⟩ | hpc
    · exact nomatch hc.symm.trans hpc
    · obtain rfl := Pc.wait.inj (hc.symm.trans hpc)
      exact ⟨hcn, hl, by omega, by omega, hnone⟩
    · exact nomatch hc.symm.trans hpc
  · rcases h.top hc with hfirst | ⟨hl, hclk⟩
    · exact Or.inl hfirst
    · refine Or.inr ⟨hl, Or.inr ?_⟩
      rcases hcase with ⟨-, hlast⟩ | ⟨c', hpc, -⟩ | hpc
      · omega
      · exact nomatch hc.symm.trans hpc
      · exact nomatch hc.symm.trans hpc

/-! ### The children -/

/-- **What the children do**, when the clock shows `clk`. -/
structure Attended (clk : ℤ) (s : State) : Prop where
  /-- The child of the running process holds the remaining time, and has signalled if it has
  exited. -/
  running : ∀ x, s.currProcess = some x → ∃ c, s.child x.pid = some c ∧ c.stopped = false ∧
    c.remainingtime = s.shmRT ∧ 0 ≤ s.shmRT ∧
    (c.exited = true ↔ s.processFinishedSignal = true ∨ s.pc = .reap) ∧
    (c.exited = true → s.shmRT = 0)
  /-- The processes that are ready have something left, and their children are stopped. -/
  held : ∀ y ∈ s.readyQueue, 0 < y.remainingTime ∧ (y.pid ≠ -1 → ∃ c, s.child y.pid = some c ∧
    c.stopped = true ∧ c.exited = false ∧ c.remainingtime = y.remainingTime)
  others : ∀ p c, s.child p = some c →
    c.stopped = true ∨ ∃ x, s.currProcess = some x ∧ x.pid = p
  signal : s.processFinishedSignal = true →
    s.currProcess ≠ none ∧ (s.pc = .top ∨ s.pc = .finish)
  /-- A permit is used up before the clock goes on. -/
  sem : s.sem = 0 ∨ (s.sem = 1 ∧ s.pc = .top ∧ clk = s.lastTick ∧ s.currProcess ≠ none ∧
    0 < s.shmRT)
  /-- A process that has nothing left has signalled before the next turn. -/
  idle : s.currProcess ≠ none → (s.pc = .top ∧ clk = s.lastTick) ∨ s.pc = .reap ∨
    s.processFinishedSignal = true ∨ 0 < s.shmRT

/-- The child of a process that is dispatched. -/
theorem childOf_eq_some {o : Option Dual.Child} (h : x.pid ≠ -1 → ∃ c, o = some c ∧
    c.stopped = true ∧ c.exited = false ∧ c.remainingtime = x.remainingTime) :
    ∃ c, childOf x o = some c ∧ c.stopped = false ∧ c.exited = false ∧
      c.remainingtime = x.remainingTime := by
  by_cases hp : x.pid = -1
  · exact ⟨_, congrFun (if_pos hp) o, rfl, rfl, rfl⟩
  · obtain ⟨c, rfl, -, hex, hrem⟩ := h hp
    exact ⟨_, congrFun (if_neg hp) (some c), rfl, hex, hrem⟩

/-- A move that the children do not notice. -/
theorem Attended.goto (h : Attended clk s) (hcur : s'.currProcess = s.currProcess)
    (hq : s'.readyQueue = s.readyQueue) (hchild : s'.child = s.child) (hrt : s'.shmRT = s.shmRT)
    (hsig : s'.processFinishedSignal = s.processFinishedSignal) (hpc : s.pc ≠ .reap)
    (hpc' : s'.pc ≠ .reap) (hsem : s'.sem = 0)
    (hsignal : s.processFinishedSignal = true → s'.pc = .top ∨ s'.pc = .finish)
    (hidle : s.currProcess ≠ none →
      (s'.pc = .top ∧ clk = s'.lastTick) ∨ s.processFinishedSignal = true ∨ 0 < s.shmRT) :
    Attended clk s' where
  running x hx := by
    obtain ⟨c, hc, hgo, hrem, h0, hex, hdone⟩ := h.running x (hcur ▸ hx)
    rw [hchild, hrt, hsig]
    refine ⟨c, hc, hgo, hrem, h0, hex.trans (or_congr Iff.rfl ?_), hdone⟩
    exact iff_of_false hpc hpc'
  held y hy := by
    rw [hchild]
    exact h.held y (hq ▸ hy)
  others p c hc := by
    rw [hcur]
    exact h.others p c (hchild ▸ hc)
  signal hs := by
    rw [hsig] at hs
    rw [hcur]
    exact ⟨(h.signal hs).1, hsignal hs⟩
  sem := Or.inl hsem
  idle hne := by
    rw [hsig, hrt]
    rw [hcur] at hne
    rcases hidle hne with hc | hc
    · exact Or.inl hc
    · exact Or.inr (Or.inr hc)

/-- In a turn no permit is left. -/
theorem Attended.sem_eq_zero (h : Attended clk s) (hpc : s.pc ≠ .top) : s.sem = 0 :=
  h.sem.resolve_right fun hs => hpc hs.2.1

/-- Behind the test of the signal, the running process has something left. -/
theorem Attended.left (h : Attended clk s) (h1 : s.pc ≠ .top) (h2 : s.pc ≠ .finish)
    (h3 : s.pc ≠ .reap) : s.processFinishedSignal = false ∧
      (s.currProcess ≠ none → 0 < s.shmRT) := by
  have hsig : s.processFinishedSignal = false := by
    refine Bool.eq_false_iff.mpr fun hs => ?_
    rcases (h.signal hs).2 with hc | hc
    · exact h1 hc
    · exact h2 hc
  refine ⟨hsig, fun hne => ?_⟩
  rcases h.idle hne with ⟨hc, -⟩ | hc | hc | hc
  · exact absurd hc h1
  · exact absurd hc h3
  · rw [hsig] at hc
    exact nomatch hc
  · exact hc

/-- **The scheduler keeps to its children.** A process that is received has something to do. -/
theorem Attended.moves (h : Attended clk s) (ht : Timed clk s) (hf : Forked s)
    (hm : Moves clk s s') (hwork : ∀ d ∈ s.msgq, d.mtype = 1 → 0 < d.runtime) :
    Attended clk s' := by
  -- a move behind the test of the signal
  have hgo : ∀ s₁ : State, s.pc ≠ .top ∧ s.pc ≠ .finish ∧ s.pc ≠ .reap →
      s₁.currProcess = s.currProcess → s₁.readyQueue = s.readyQueue → s₁.child = s.child →
      s₁.shmRT = s.shmRT → s₁.processFinishedSignal = s.processFinishedSignal →
      s₁.sem = s.sem → s₁.pc ≠ .reap → Attended clk s₁ := by
    rintro s₁ ⟨h1, h2, h3⟩ hcur hq hchild hrt hsig hsem hpc'
    obtain ⟨hno, hleft⟩ := h.left h1 h2 h3
    refine h.goto hcur hq hchild hrt hsig h3 hpc' (hsem.trans (h.sem_eq_zero h1)) (fun hs => ?_)
      fun hne => Or.inr (Or.inr (hleft hne))
    rw [hno] at hs
    exact nomatch hs
  have hbehind : ∀ s₁ : State, s.pc ≠ .top ∧ s.pc ≠ .finish ∧ s.pc ≠ .reap →
      s₁.currProcess = s.currProcess → s₁.readyQueue = s.readyQueue → s₁.child = s.child →
      s₁.shmRT = s.shmRT → s₁.processFinishedSignal = s.processFinishedSignal →
      s₁.sem = s.sem → s₁.pc = behindReceive s.now → Attended clk s₁ := by
    intro s₁ hpc hcur hq hchild hrt hsig hsem hpc'
    refine hgo s₁ hpc hcur hq hchild hrt hsig hsem ?_
    rcases behindReceive_cases s.now with ⟨-, hb⟩ | ⟨-, hb⟩ <;> rw [hpc', hb] <;> exact nofun
  cases hm with
  | spin hpc hgo hold => exact h
  | leave hpc hgo =>
    have hnone : s.currProcess = none := by
      cases hc : s.currProcess with
      | none => rfl
      | some x =>
        rw [goesOn, hc] at hgo
        simp at hgo
    refine h.goto rfl rfl rfl rfl rfl (by rw [hpc]; exact nofun) nofun ?_
      (fun hs => absurd hnone (h.signal hs).1) fun hne => absurd hnone hne
    exact h.sem.resolve_right fun hs => hs.2.2.2.1 hnone
  | begin hpc hgo hnew =>
    refine h.goto rfl rfl rfl rfl rfl (by rw [hpc]; exact nofun) nofun ?_
      (fun _ => Or.inr rfl) fun hne => ?_
    · exact h.sem.resolve_right fun hs => hnew hs.2.2.1
    · rcases h.idle hne with ⟨-, hc⟩ | hc | hc | hc
      · exact absurd hc hnew
      · rw [hpc] at hc
        exact nomatch hc
      · exact Or.inr (Or.inl hc)
      · exact Or.inr (Or.inr hc)
  | running hpc hno =>
    have hsig : s.currProcess ≠ none → s.processFinishedSignal = false := fun hne =>
      Bool.eq_false_iff.mpr fun hs => hno ⟨Option.isSome_iff_ne_none.mpr hne, hs⟩
    refine h.goto rfl rfl rfl rfl rfl (by rw [hpc]; exact nofun) nofun
      (h.sem_eq_zero (by rw [hpc]; exact nofun)) (fun hs => ?_) fun hne => ?_
    · rw [hsig (h.signal hs).1] at hs
      exact nomatch hs
    · rcases h.idle hne with ⟨hc, -⟩ | hc | hc | hc
      · rw [hpc] at hc
        exact nomatch hc
      · rw [hpc] at hc
        exact nomatch hc
      · rw [hsig hne] at hc
        exact nomatch hc
      · exact Or.inr (Or.inr hc)
  | @signalled x hpc hx hsig =>
    refine ⟨fun y hy => ?_, h.held, h.others, (fun hs => nomatch hs),
      Or.inl (h.sem_eq_zero (by rw [hpc]; exact nofun)), fun _ => Or.inr (Or.inl rfl)⟩
    obtain ⟨c, hc, hgo, hrem, h0, hex, hdone⟩ := h.running y hy
    exact ⟨c, hc, hgo, hrem, h0, iff_of_true (hex.mpr (Or.inl hsig)) (Or.inr rfl), hdone⟩
  | @reap x hpc hx hchild l =>
    have hsig : s.processFinishedSignal = false := Bool.eq_false_iff.mpr fun hs => by
      rcases (h.signal hs).2 with hc | hc <;> rw [hpc] at hc <;> exact nomatch hc
    refine ⟨(fun y (hy : none = some y) => nomatch hy), fun y hy => ?_, fun p c hc => ?_,
      fun hs => ?_, Or.inl (h.sem_eq_zero (by rw [hpc]; exact nofun)), fun hne => absurd rfl hne⟩
    · have hne := hf.ne_curr hx (List.mem_append_left _ hy)
      obtain ⟨h0, hheld⟩ := h.held y hy
      refine ⟨h0, fun hp => ?_⟩
      obtain ⟨c, hc, hrest⟩ := hheld hp
      exact ⟨c, by rw [← hc]; exact Function.update_of_ne hne _ _, hrest⟩
    · by_cases hp : p = x.pid
      · rw [hp] at hc
        have hnone : none = some c := (Function.update_self x.pid none s.child).symm.trans hc
        exact nomatch hnone
      · have hc' : s.child p = some c := (Function.update_of_ne hp none s.child).symm.trans hc
        rcases h.others p c hc' with hstop | ⟨y, hy, hyp⟩
        · exact Or.inl hstop
        · obtain rfl := Option.some.inj (hx.symm.trans hy)
          exact absurd hyp.symm hp
    · rw [show s.processFinishedSignal = false from hsig] at hs
      exact nomatch hs
  | closed hpc hcsu hnow =>
    exact hgo _ (by rw [hpc]; exact ⟨nofun, nofun, nofun⟩) rfl rfl rfl rfl rfl rfl nofun
  | listen hpc hcsu hrec =>
    exact hgo _ (by rw [hpc]; exact ⟨nofun, nofun, nofun⟩) rfl rfl rfl rfl rfl rfl nofun
  | skip hpc hcsu hrec =>
    exact hbehind _ (by rw [hpc]; exact ⟨nofun, nofun, nofun⟩) rfl rfl rfl rfl rfl rfl rfl
  | @arrive d rest hpc hrcv h1 =>
    have hd : d ∈ s.msgq := by
      obtain ⟨l, r, hq, -⟩ := MsgQueue.rcv_eq_some hrcv
      rw [hq]
      exact List.mem_append_right _ List.mem_cons_self
    obtain ⟨hno, hleft⟩ := h.left (by rw [hpc]; exact nofun) (by rw [hpc]; exact nofun)
      (by rw [hpc]; exact nofun)
    refine ⟨h.running, fun y hy => ?_, h.others, h.signal, h.sem, h.idle⟩
    rcases Queue.mem_enqueuePriority.mp hy with rfl | hy
    · exact ⟨hwork d hd h1, fun hp => absurd rfl hp⟩
    · exact h.held y hy
  | sync hpc hrcv h2 hnew =>
    exact hbehind _ (by rw [hpc]; exact ⟨nofun, nofun, nofun⟩) rfl rfl rfl rfl rfl rfl rfl
  | last hpc hrcv h5 =>
    exact hbehind _ (by rw [hpc]; exact ⟨nofun, nofun, nofun⟩) rfl rfl rfl rfl rfl rfl rfl
  | drop hpc hrcv h1 =>
    exact hgo _ (by rw [hpc]; exact ⟨nofun, nofun, nofun⟩) rfl rfl rfl rfl rfl rfl
      (by rw [show s.pc = .receive from hpc]; exact nofun)
  | idle hpc hrun hnone =>
    exact hgo _ (by rw [hpc]; exact ⟨nofun, nofun, nofun⟩) rfl rfl rfl rfl rfl rfl nofun
  | @preempt x y q hpc hx hq hlt =>
    obtain ⟨hno, hleft⟩ := h.left (by rw [hpc]; exact nofun) (by rw [hpc]; exact nofun)
      (by rw [hpc]; exact nofun)
    have hne : s.currProcess ≠ none := by rw [hx]; exact Option.some_ne_none x
    refine ⟨fun z hz => ?_, h.held, fun p c hc => ?_, fun hs => ?_,
      Or.inl (h.sem_eq_zero (by rw [hpc]; exact nofun)),
      fun _ => Or.inr (Or.inr (Or.inr (hleft hne)))⟩
    · obtain rfl := Option.some.inj hz
      obtain ⟨c, hc, hgo, hrem, h0, hex, hdone⟩ := h.running x hx
      refine ⟨c, hc, hgo, hrem, h0, hex.trans (or_congr Iff.rfl (iff_of_false ?_ nofun)), hdone⟩
      rw [hpc]
      exact nofun
    · rcases h.others p c hc with hstop | ⟨z, hz, hzp⟩
      · exact Or.inl hstop
      · obtain rfl := Option.some.inj (hx.symm.trans hz)
        exact Or.inr ⟨_, rfl, hzp⟩
    · rw [show s.processFinishedSignal = false from hno] at hs
      exact nomatch hs
  | @dispatch x q hpc hcurr hq l =>
    obtain ⟨hno, -⟩ := h.left (by rw [hpc]; exact nofun) (by rw [hpc]; exact nofun)
      (by rw [hpc]; exact nofun)
    obtain ⟨h0, hheld⟩ := h.held x (by rw [hq]; exact List.mem_cons_self)
    have hpid := dispatched_pid x clk (s.forks + 1)
    refine ⟨fun y hy => ?_, fun y hy => ?_, fun p c hc => ?_, fun hs => ?_,
      Or.inl (h.sem_eq_zero (by rw [hpc]; exact nofun)), fun _ => Or.inr (Or.inr (Or.inr h0))⟩
    · -- the child of the process is new, or goes on
      obtain rfl := Option.some.inj hy
      obtain ⟨c, hc, hgo, hex, hrem⟩ := childOf_eq_some hheld
      refine ⟨c, (Function.update_self _ _ _).trans hc, hgo, hrem, h0.le, ?_, fun he => ?_⟩
      · exact iff_of_false (by rw [hex]; decide) (by
          rintro (hs | hs)
          · exact nomatch hno.symm.trans hs
          · exact nomatch hs)
      · rw [hex] at he
        exact nomatch he
    · have hyq : y ∈ s.readyQueue := by
        rw [hq]
        exact List.mem_cons_of_mem x hy
      refine ⟨(h.held y hyq).1, fun hp => ?_⟩
      obtain ⟨c, hc, hrest⟩ := (h.held y hyq).2 hp
      refine ⟨c, (Function.update_of_ne ?_ _ _).trans hc, hrest⟩
      rw [hpid]
      split_ifs with hxp
      · have := (hf.range _ (mem_pids (mem_pcbs_of_ready hyq) hp)).2
        omega
      · exact hf.ne_front hq hxp (List.mem_append_left _ hy)
    · by_cases hp : p = (dispatched x clk (s.forks + 1)).pid
      · exact Or.inr ⟨_, rfl, hp.symm⟩
      · have hc' : s.child p = some c := (Function.update_of_ne hp _ s.child).symm.trans hc
        rcases h.others p c hc' with hstop | ⟨y, hy, -⟩
        · exact Or.inl hstop
        · exact nomatch hcurr.symm.trans hy
    · exact nomatch hno.symm.trans hs
  | @stop x hpc hx l =>
    obtain ⟨hno, hleft⟩ := h.left (by rw [hpc]; exact nofun) (by rw [hpc]; exact nofun)
      (by rw [hpc]; exact nofun)
    obtain ⟨c, hc, hgo, hrem, -, hex, -⟩ := h.running x hx
    have hne : s.currProcess ≠ none := by rw [hx]; exact Option.some_ne_none x
    have hlive : c.exited = false := Bool.eq_false_iff.mpr fun he => by
      rcases hex.mp he with hs | hs
      · exact nomatch hno.symm.trans hs
      · exact nomatch hpc.symm.trans hs
    refine ⟨(fun y (hy : none = some y) => nomatch hy), fun y hy => ?_, fun p c' hc' => ?_,
      fun hs => ?_, Or.inl (h.sem_eq_zero (by rw [hpc]; exact nofun)), fun hne => absurd rfl hne⟩
    · rcases Queue.mem_enqueuePriority.mp hy with rfl | hy
      · refine ⟨hleft hne, fun _ => ⟨{ c with stopped := true }, ?_, rfl, hlive, hrem⟩⟩
        refine (Function.update_self x.pid _ s.child).trans ?_
        rw [hc]
      · obtain ⟨h0, hheld⟩ := h.held y hy
        refine ⟨h0, fun hp => ?_⟩
        obtain ⟨c', hc', hrest⟩ := hheld hp
        have hne := hf.ne_curr hx (List.mem_append_left _ hy)
        exact ⟨c', (Function.update_of_ne hne _ _).trans hc', hrest⟩
    · by_cases hp : p = x.pid
      · rw [hp] at hc'
        have hsome := (Function.update_self x.pid _ s.child).symm.trans hc'
        obtain ⟨c₁, -, rfl⟩ := Option.map_eq_some_iff.mp hsome
        exact Or.inl rfl
      · have hold : s.child p = some c' := (Function.update_of_ne hp _ s.child).symm.trans hc'
        rcases h.others p c' hold with hstop | ⟨y, hy, hyp⟩
        · exact Or.inl hstop
        · obtain rfl := Option.some.inj (hx.symm.trans hy)
          exact absurd hyp.symm hp
    · exact nomatch hno.symm.trans hs
  | waitStart hpc =>
    exact hgo _ (by rw [hpc]; exact ⟨nofun, nofun, nofun⟩) rfl rfl rfl rfl rfl rfl nofun
  | waited hpc hc =>
    exact hgo _ (by rw [hpc]; exact ⟨nofun, nofun, nofun⟩) rfl rfl rfl rfl rfl rfl nofun
  | permit hpc =>
    obtain ⟨hno, hleft⟩ := h.left (by rw [hpc]; exact nofun) (by rw [hpc]; exact nofun)
      (by rw [hpc]; exact nofun)
    obtain ⟨hl, hclk⟩ := ht.permit hpc
    have hsem := h.sem_eq_zero (by rw [hpc]; exact nofun)
    refine ⟨fun x hx => ?_, h.held, h.others, fun hs => ?_, ?_, fun hne => ?_⟩
    · obtain ⟨c, hc, hgo, hrem, h0, hex, hdone⟩ := h.running x hx
      refine ⟨c, hc, hgo, hrem, h0, hex.trans (or_congr Iff.rfl (iff_of_false ?_ nofun)), hdone⟩
      rw [hpc]
      exact nofun
    · exact nomatch hno.symm.trans hs
    · cases hcur : s.currProcess with
      | none => exact Or.inl hsem
      | some x =>
        have hne : s.currProcess ≠ none := by rw [hcur]; exact Option.some_ne_none x
        have hnow : clk = s.now := hclk.resolve_right fun hc => hne hc.2
        exact Or.inr ⟨rfl, rfl, hnow.trans hl.symm, Option.some_ne_none x, hleft hne⟩
    · have hnow : clk = s.now := hclk.resolve_right fun hc => hne hc.2
      exact Or.inl ⟨rfl, hnow.trans hl.symm⟩

/-- **A child takes the permit of its turn**, and signals when nothing is left. -/
theorem Attended.executes (h : Attended clk s) (he : Executes pid clk s s') :
    Attended clk s' := by
  -- only the child of the running process goes on
  have hcurr : ∀ c, s.child pid = some c → c.stopped = false →
      ∃ x, s.currProcess = some x ∧ x.pid = pid := by
    intro c hc hgo
    rcases h.others pid c hc with hstop | hx
    · exact nomatch hgo.symm.trans hstop
    · exact hx
  -- the children of the processes that are ready are stopped
  have hready : ∀ {c c' : Dual.Child} {y : PCB}, s.child pid = some c → c.stopped = false →
      s.child y.pid = some c' → c'.stopped = true → y.pid ≠ pid := by
    rintro c c' y hc hgo hc' hstop rfl
    obtain rfl := Option.some.inj (hc.symm.trans hc')
    exact nomatch hgo.symm.trans hstop
  have hheld : ∀ {c : Dual.Child} {o : Option Dual.Child}, s.child pid = some c →
      c.stopped = false → ∀ y ∈ s.readyQueue, 0 < y.remainingTime ∧ (y.pid ≠ -1 →
        ∃ c, Function.update s.child pid o y.pid = some c ∧ c.stopped = true ∧ c.exited = false ∧
          c.remainingtime = y.remainingTime) := by
    intro c o hc hgo y hy
    obtain ⟨h0, hheld⟩ := h.held y hy
    refine ⟨h0, fun hp => ?_⟩
    obtain ⟨c', hc', hstop, hrest⟩ := hheld hp
    exact ⟨c', (Function.update_of_ne (hready hc hgo hc' hstop) _ _).trans hc', hstop, hrest⟩
  have hothers : ∀ {x : PCB} {o : Option Dual.Child}, s.currProcess = some x → x.pid = pid →
      ∀ p c, Function.update s.child pid o p = some c →
        c.stopped = true ∨ ∃ x, s.currProcess = some x ∧ x.pid = p := by
    intro x o hx hpid p c hc
    by_cases hp : p = pid
    · exact Or.inr ⟨x, hx, hpid.trans hp.symm⟩
    · exact h.others p c ((Function.update_of_ne hp o s.child).symm.trans hc)
  cases he with
  | @exit c hc hgo hlive hdone =>
    obtain ⟨x, hx, hpid⟩ := hcurr c hc hgo
    obtain ⟨c', hc', -, hrem, h0, hex, -⟩ := h.running x hx
    obtain rfl := Option.some.inj (hc.symm.trans ((congrArg s.child hpid.symm).trans hc'))
    have hne : s.currProcess ≠ none := by rw [hx]; exact Option.some_ne_none x
    have hzero : s.shmRT = 0 := by omega
    have hno : ¬(s.processFinishedSignal = true ∨ s.pc = .reap) := fun hs =>
      nomatch hlive.symm.trans (hex.mpr hs)
    have htop : s.pc = .top ∧ clk = s.lastTick := by
      rcases h.idle hne with ht | hc | hc | hc
      · exact ht
      · exact absurd (Or.inr hc) hno
      · exact absurd (Or.inl hc) hno
      · omega
    refine ⟨fun y hy => ?_, hheld hc hgo, hothers hx hpid, fun _ => ⟨hne, Or.inl htop.1⟩,
      Or.inl (h.sem.resolve_right fun hs => by omega), fun _ => Or.inl htop⟩
    obtain rfl := Option.some.inj (hx.symm.trans hy)
    rw [hpid]
    exact ⟨_, Function.update_self _ _ _, hgo, hrem, h0, iff_of_true rfl (Or.inl rfl),
      fun _ => hzero⟩
  | @tick c hc hgo hlive hleft hsem =>
    obtain ⟨x, hx, hpid⟩ := hcurr c hc hgo
    obtain ⟨c', hc', -, hrem, h0, hex, -⟩ := h.running x hx
    obtain rfl := Option.some.inj (hc.symm.trans ((congrArg s.child hpid.symm).trans hc'))
    obtain ⟨hone, htop, hclk, hne, -⟩ := h.sem.resolve_left hsem
    refine ⟨fun y hy => ?_, hheld hc hgo, hothers hx hpid, h.signal, Or.inl ?_,
      fun _ => Or.inl ⟨htop, hclk⟩⟩
    · obtain rfl := Option.some.inj (hx.symm.trans hy)
      rw [hpid]
      refine ⟨_, Function.update_self _ _ _, hgo, rfl, ?_, hex, fun he => ?_⟩
      · show 0 ≤ c.remainingtime - 1
        omega
      · exact nomatch hlive.symm.trans he
    · show s.sem - 1 = 0
      omega

/-- **When nobody can move, the clock may go on.** -/
theorem Attended.tick (h : Attended clk s) (hidle : ∀ pid, s.childStep pid clk = none) :
    Attended (clk + 1) s := by
  have hleft : ∀ x, s.currProcess = some x → s.pc = .reap ∨ s.processFinishedSignal = true ∨
      (0 < s.shmRT ∧ s.sem = 0) := by
    intro x hx
    obtain ⟨c, hc, hgo, hrem, h0, hex, hdone⟩ := h.running x hx
    have hstep := hidle x.pid
    simp only [childStep, hc, hgo, Bool.false_eq_true, false_or] at hstep
    by_cases he : c.exited = true
    · rcases hex.mp he with hs | hs
      · exact Or.inr (Or.inl hs)
      · exact Or.inl hs
    · rw [if_neg he] at hstep
      split_ifs at hstep with hd hs
      exact Or.inr (Or.inr ⟨by omega, hs⟩)
  refine ⟨h.running, h.held, h.others, h.signal, ?_, fun hne => ?_⟩
  · refine Or.inl (h.sem.resolve_right ?_)
    rintro ⟨hone, htop, hclk, hne, hrt⟩
    obtain ⟨x, hx⟩ := Option.ne_none_iff_exists'.mp hne
    rcases hleft x hx with hc | hc | ⟨-, hc⟩
    · exact absurd (htop.symm.trans hc) (by simp)
    · obtain ⟨c, hc', hgo, hrem, h0, hex, hdone⟩ := h.running x hx
      have := hdone (hex.mpr (Or.inl hc))
      omega
    · omega
  · obtain ⟨x, hx⟩ := Option.ne_none_iff_exists'.mp hne
    rcases hleft x hx with hc | hc | ⟨hc, -⟩
    · exact Or.inr (Or.inl hc)
    · exact Or.inr (Or.inr (Or.inl hc))
    · exact Or.inr (Or.inr (Or.inr hc))

end State

namespace World

variable {w w' : World} {e : Event}

/-! ### A turn for each tick -/

/-- **The program keeps up with the clock**: when the clock goes on, the turn for the tick is over,
except that `wait_N_secs` waits for the next tick, and no child has anything to do. So the receive
phase for a tick is over within the tick, and each tick has its turn. -/
def Paced (w : World) : Event → Prop
  | .tick => ((w.sch.pc = .top ∧ (w.clock = w.sch.lastTick ∨ w.sch.lastTick = -1)) ∨
      (∃ c, w.sch.pc = .wait c ∧ w.clock < c) ∨ w.sch.pc = .exited) ∧
      ∀ pid, w.sch.childStep pid w.clock = none
  | _ => True

/-- What is sent has arrived. -/
structure Arrived (w : World) : Prop where
  sent : ∀ d ∈ w.gen.sent, d.arrival ≤ w.clock
  current : ∀ t, w.gen.current = some t → t ≤ w.clock

theorem Arrived.step (h : Arrived w) (hs : Steps w e w') : Arrived w' := by
  cases hs with
  | tick =>
    refine ⟨fun d hd => ?_, fun t ht => ?_⟩
    · have := h.sent d hd
      exact this.trans (Int.le_add_one le_rfl)
    · exact (h.current t ht).trans (Int.le_add_one le_rfl)
  | observe _ _ =>
    refine ⟨h.sent, fun t ht => ?_⟩
    have ht : (if w.clock = w.gen.lastTime then none else some w.clock) = some t := ht
    split_ifs at ht
    exact (Option.some.inj ht).ge
  | @send t d q hcur _ hdue =>
    refine ⟨fun d' hd => ?_, h.current⟩
    rcases List.mem_append.mp hd with hd | hd
    · exact h.sent d' hd
    · rw [List.mem_singleton.mp hd]
      exact hdue.trans (h.current t hcur)
  | sync _ _ => exact ⟨h.sent, fun t ht => nomatch ht⟩
  | _ => exact ⟨h.sent, h.current⟩

/-- **What holds between the steps of a paced run.** -/
structure Kept (l : List ProcessData) (w : World) : Prop where
  workload : CpuScheduler.World.Workload l
  ranked : w.sch.Ranked
  conserved : Conserved l w
  arrived : Arrived w
  forked : w.sch.Forked
  timed : State.Timed w.clock w.sch
  attended : State.Attended w.clock w.sch

/-- What is in the queue has something to do, and has arrived. -/
theorem Kept.msgq {l : List ProcessData} (h : Kept l w) {d : ProcessData} (hd : d ∈ w.sch.msgq)
    (h1 : d.mtype = 1) : 0 < d.runtime ∧ d.arrival ≤ w.clock := by
  have hsent : d ∈ w.gen.sent := by
    rw [h.conserved.sent]
    exact List.mem_append_right _ (List.mem_filter.mpr ⟨hd, decide_eq_true h1⟩)
  refine ⟨h.workload.runtime d ?_, h.arrived.sent d hsent⟩
  rw [← h.conserved.source]
  exact List.mem_append_left _ hsent

/-- A message does not matter. -/
theorem Kept.post {l : List ProcessData} (h : Kept l w) {d : ProcessData} {g : Generator}
    (hc : Conserved l (w.post d g)) (ha : Arrived (w.post d g)) : Kept l (w.post d g) where
  workload := h.workload
  ranked := ⟨h.ranked.sorted, h.ranked.waiting, h.ranked.chosen⟩
  conserved := hc
  arrived := ha
  forked := ⟨h.forked.once, h.forked.range, h.forked.started, h.forked.ended, h.forked.known,
    h.forked.children, h.forked.forks⟩
  timed := ⟨h.timed.turn, h.timed.wait, h.timed.permit, h.timed.top, h.timed.nonneg,
    h.timed.tick, h.timed.running, h.timed.behind, h.timed.stopping⟩
  attended := ⟨h.attended.running, h.attended.held, h.attended.others, h.attended.signal,
    h.attended.sem, h.attended.idle⟩

theorem Kept.step {l : List ProcessData} (h : Kept l w) (hs : Steps w e w') (hp : Paced w e) :
    Kept l w' := by
  have hc := h.conserved.step h.workload.mtype hs
  have ha := h.arrived.step hs
  cases hs with
  | tick =>
    obtain ⟨hcase, hidle⟩ := hp
    exact ⟨h.workload, h.ranked, hc, ha, h.forked, h.timed.goesOn hcase, h.attended.tick hidle⟩
  | sched hm =>
    exact ⟨h.workload, h.ranked.moves hm, hc, ha, h.forked.moves hm, h.timed.moves h.ranked hm,
      h.attended.moves h.timed h.forked hm fun d hd h1 => (h.msgq hd h1).1⟩
  | child he =>
    have ht : State.Timed w.clock _ := h.timed.executes he
    exact ⟨h.workload, h.ranked.executes he, hc, ha, h.forked.executes he, ht,
      h.attended.executes he⟩
  | observe _ _ => exact ⟨h.workload, h.ranked, hc, ha, h.forked, h.timed, h.attended⟩
  | send _ _ _ => exact h.post hc ha
  | sync _ _ => exact h.post hc ha
  | last _ _ _ => exact h.post hc ha

end World

end Hpf

end CpuScheduler
