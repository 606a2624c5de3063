import CpuScheduler.Log
import CpuScheduler.Hpf.Accounting
import CpuScheduler.RR.Admission

/-!
# The log of HPF

What the scheduler does under HPF is what one processor does: the lines of its log can be replayed
(`CpuScheduler.Timeline.replay`), and lead to a processor that is read off the state of the
scheduler (`CpuScheduler.Hpf.State.view`). The log also shows the priorities
(`CpuScheduler.Hpf.State.Disciplined`).

| line | what is true of its process |
|---|---|
| start, resume | nobody who has begun and is not done comes before it |
| the next one behind a stop | it comes before the one that is stopped, strictly |

Both hold however late anybody is (`CpuScheduler.Hpf.World.reachable_log`).
-/

namespace CpuScheduler

namespace Hpf

open Fallible Timeline

variable {s s' : State} {clk pid : ℤ} {x y : PCB} {i j : ℤ}

namespace State

/-! ### What is written -/

/-- The line that is written from a cut to the next, if there is one. -/
def written (s : State) (clk : ℤ) : Option LogLine :=
  match s.pc with
  | .reap => s.currProcess.map fun x => RRState.lineOf (reaped x clk s.shmRT) clk
  | .stop => s.currProcess.map fun x => RRState.lineOf (stopped x s.shmRT) clk
  | .algo =>
    if s.currProcess = none then
      s.readyQueue.head?.map fun x => RRState.lineOf (dispatched x clk (s.forks + 1)) clk
    else none
  | _ => none

theorem runProcess_log (s : State) (x : PCB) (clk : ℤ) : (s.runProcess x clk).log =
    s.log ++ [RRState.lineOf (dispatched x clk (s.forks + 1)) clk] := by
  rw [runProcess]
  by_cases hs : x.startTime = -1
  · by_cases hp : x.pid = -1
    · simp only [dispatched, if_pos hs, if_pos hp]
      rfl
    · simp only [dispatched, if_pos hs, if_neg hp]
      rfl
  · by_cases hp : x.pid = -1
    · simp only [dispatched, if_neg hs, if_pos hp]
      rfl
    · simp only [dispatched, if_neg hs, if_neg hp]
      rfl

theorem dispatched_lState (x : PCB) (clk pid : ℤ) :
    (dispatched x clk pid).lState = if x.pid = -1 then .start else .resume := by
  unfold dispatched
  by_cases hs : x.startTime = -1
  · by_cases hp : x.pid = -1
    · simp only [if_pos hs, if_pos hp]
    · simp only [if_pos hs, if_neg hp]
  · by_cases hp : x.pid = -1
    · simp only [if_neg hs, if_pos hp]
    · simp only [if_neg hs, if_neg hp]

/-- **The log only grows**, by the line that is written. -/
theorem next_log (h : s.next clk = .ok s') : s'.log = s.log ++ (s.written clk).toList := by
  have hkeep : s.written clk = none → s'.log = s.log →
      s'.log = s.log ++ (s.written clk).toList := by
    intro hw hlog
    rw [hw, hlog, Option.toList_none, List.append_nil]
  rw [next] at h
  split at h
  · next hpc =>
    obtain rfl := Except.ok.inj h
    refine hkeep (by rw [written, hpc]) ?_
    rw [top]
    split_ifs <;> rfl
  · next hpc =>
    obtain rfl := Except.ok.inj h
    refine hkeep (by rw [written, hpc]) ?_
    rw [testFinished]
    split_ifs <;> rfl
  · next hpc =>
    rw [reap] at h
    split at h
    · exact absurd h (by simp)
    · next x hx =>
      obtain ⟨u, -, h⟩ := bind_eq_ok.mp h
      obtain rfl := Except.ok.inj h
      rw [written, hpc, hx]
      rfl
  · next hpc =>
    obtain rfl := Except.ok.inj h
    refine hkeep (by rw [written, hpc]) ?_
    rw [gate]
    split_ifs <;> rfl
  · next hpc =>
    refine hkeep (by rw [written, hpc]) ?_
    rw [receive] at h
    split at h
    · exact absurd h (by simp)
    · dsimp only at h
      split_ifs at h <;> exact Except.ok.inj h ▸ rfl
  · next hpc =>
    rw [algo] at h
    split at h
    · next x hx =>
      refine hkeep (by rw [written, hpc, hx]; rfl) ?_
      split_ifs at h
      · obtain ⟨y, -, h⟩ := bind_eq_ok.mp h
        split_ifs at h <;> exact Except.ok.inj h ▸ rfl
      · exact Except.ok.inj h ▸ rfl
    · next hx =>
      cases hq : s.readyQueue with
      | nil =>
        rw [hq, if_neg (by simp [Queue.isEmpty])] at h
        refine hkeep (by rw [written, hpc, hx, hq]; rfl) ?_
        exact Except.ok.inj h ▸ rfl
      | cons y q =>
        rw [hq, if_pos (by simp [Queue.isEmpty]), Queue.dequeue_cons, ok_bind] at h
        have hw : s.written clk =
            some (RRState.lineOf (dispatched y clk (s.forks + 1)) clk) := by
          rw [written, hpc, hx, hq]
          rfl
        rw [hw, ← Except.ok.inj h]
        exact runProcess_log { s with readyQueue := q } y clk
  · next hpc =>
    rw [stopCurrent] at h
    split at h
    · exact absurd h (by simp)
    · next x hx =>
      obtain rfl := Except.ok.inj h
      rw [written, hpc, hx]
      rfl
  · next hpc =>
    obtain rfl := Except.ok.inj h
    exact hkeep (by rw [written, hpc]) rfl
  · next c hpc =>
    split_ifs at h with hc
    obtain rfl := Except.ok.inj h
    exact hkeep (by rw [written, hpc]) rfl
  · next hpc =>
    obtain rfl := Except.ok.inj h
    exact hkeep (by rw [written, hpc]) rfl
  · exact absurd h (by simp)

/-! ### The processor -/

/-- The process is in the list, and has been started. -/
def Begun (i : ℤ) (l : List PCB) : Prop := ∃ x ∈ l, x.id = i ∧ x.pid ≠ -1

instance (i : ℤ) (l : List PCB) : Decidable (Begun i l) :=
  inferInstanceAs (Decidable (∃ x ∈ l, x.id = i ∧ x.pid ≠ -1))

/-- How far a process has come, if it is among `live` or `ended`. -/
def stageOf (live ended : List PCB) (i : ℤ) : Stage :=
  if i ∈ ended.map PCB.id then .done else if Begun i live then .begun else .fresh

/-- **The processor**, as the scheduler sees it. -/
def view (s : State) : Cpu ℤ where
  running := s.currProcess.map PCB.id
  stage := stageOf (s.currProcess.toList ++ s.readyQueue) s.finished

/-- Different processes have different ids. -/
def Named (s : State) : Prop := (s.pcbs.map PCB.id).Nodup

theorem Begun.perm {l m : List PCB} (h : l.Perm m) : Begun i l ↔ Begun i m :=
  exists_congr fun _ => and_congr_left fun _ => h.mem_iff

theorem begun_cons {l : List PCB} :
    Begun i (x :: l) ↔ (x.id = i ∧ x.pid ≠ -1) ∨ Begun i l := by
  simp only [Begun, List.mem_cons, or_and_right, exists_or, exists_eq_left]

/-- Only the id and the pid matter. -/
theorem begun_congr_head {l : List PCB} (hid : y.id = x.id) (hpid : y.pid = x.pid) :
    Begun i (y :: l) ↔ Begun i (x :: l) := by
  rw [begun_cons, begun_cons, hid, hpid]

theorem begun_cons_of_ne {l : List PCB} (hid : x.id ≠ i) : Begun i (x :: l) ↔ Begun i l := by
  rw [begun_cons, or_iff_right fun h => hid h.1]

theorem begun_append {l m : List PCB} : Begun i (l ++ m) ↔ Begun i l ∨ Begun i m := by
  simp only [Begun, List.mem_append, or_and_right, exists_or]

theorem begun_enqueue {q : List PCB} : Begun i (Queue.enqueuePriority q x) ↔ Begun i (x :: q) :=
  Begun.perm (Queue.perm_enqueuePriority q x)

/-- No other process has the id of one that is ready or running. -/
theorem Named.of_head {l : List PCB} (h : Named s)
    (hl : (s.currProcess.toList ++ s.readyQueue).Perm (x :: l)) :
    x.id ∉ s.finished.map PCB.id ∧ ¬Begun x.id l := by
  have hids : (((x :: l) ++ s.finished).map PCB.id).Nodup :=
    ((hl.append_right s.finished).map PCB.id).nodup_iff.mp h
  rw [List.cons_append, List.map_cons, List.nodup_cons, List.map_append] at hids
  refine ⟨fun hmem => hids.1 (List.mem_append_right _ hmem), ?_⟩
  rintro ⟨y, hy, hid, -⟩
  exact hids.1 (List.mem_append_left _ (List.mem_map.mpr ⟨y, hy, hid⟩))

/-- How far such a process has come. -/
theorem Named.stage_of_head {l : List PCB} (h : Named s)
    (hl : (s.currProcess.toList ++ s.readyQueue).Perm (x :: l)) :
    s.view.stage x.id = if x.pid = -1 then .fresh else .begun := by
  obtain ⟨hfin, hother⟩ := h.of_head hl
  show stageOf _ _ _ = _
  rw [stageOf, if_neg hfin]
  by_cases hpid : x.pid = -1
  · rw [if_pos hpid, if_neg fun hb => ?_]
    rcases begun_cons.mp ((Begun.perm hl).mp hb) with ⟨-, hne⟩ | hb
    · exact hne hpid
    · exact hother hb
  · rw [if_neg hpid, if_pos ((Begun.perm hl).mpr (begun_cons.mpr (Or.inl ⟨rfl, hpid⟩)))]

theorem stageOf_congr {l m ended : List PCB} (h : ∀ i, Begun i l ↔ Begun i m) :
    stageOf l ended = stageOf m ended := by
  funext i
  exact if_congr Iff.rfl rfl (if_congr (h i) rfl rfl)

/-- **The scheduler does what a processor does**, and writes it down: a move that writes no line
leaves the processor alone, and one that writes a line makes the act that the line tells of. -/
theorem Moves.simulates (hm : Moves clk s s') (hn : Named s) (hf : Forked s) :
    (s.written clk = none ∧ s'.view = s.view) ∨ ∃ line a, s.written clk = some line ∧
      line.lState.act = some a ∧ s.view.step (a, line.id) = some s'.view := by
  cases hm with
  | @arrive msg rest hpc _ _ =>
    refine Or.inl ⟨by rw [written, hpc], ?_⟩
    -- a new process has not been started
    refine Cpu.ext rfl (stageOf_congr fun i => ?_)
    rw [begun_append, begun_append, begun_enqueue, begun_cons]
    exact or_congr Iff.rfl (or_iff_right fun hb => hb.2 rfl)
  | @reap x hpc hx _ l =>
    refine Or.inr ⟨_, .finish, by rw [written, hpc, hx]; rfl, rfl,
      Cpu.step_finish.mpr ⟨by rw [view, hx]; rfl, Cpu.ext rfl ?_⟩⟩
    funext i
    show Function.update (stageOf _ _) x.id .done i =
      stageOf ([] ++ s.readyQueue) (s.finished ++ [reaped x clk s.shmRT]) i
    rw [stageOf, List.map_append, List.map_singleton]
    by_cases hi : i = x.id
    · subst hi
      have hmem : x.id ∈ s.finished.map PCB.id ++ [(reaped x clk s.shmRT).id] :=
        List.mem_append_right _ (List.mem_singleton.mpr rfl)
      rw [Function.update_self, if_pos hmem]
    · rw [Function.update_of_ne hi, stageOf, hx]
      have hmem : i ∈ s.finished.map PCB.id ++ [(reaped x clk s.shmRT).id] ↔
          i ∈ s.finished.map PCB.id := by
        rw [List.mem_append, List.mem_singleton]
        exact or_iff_left hi
      exact if_congr hmem.symm rfl (if_congr (begun_cons_of_ne (Ne.symm hi)) rfl rfl)
  | idle hpc _ hnone =>
    refine Or.inl ⟨?_, rfl⟩
    rw [written, hpc]
    dsimp only
    split_ifs with hcurr
    · rw [hnone hcurr]
      rfl
    · rfl
  | @preempt x y q hpc hx hq hlt =>
    refine Or.inl ⟨by rw [written, hpc, hx]; rfl, Cpu.ext ?_ ?_⟩
    · show some x.id = s.currProcess.map PCB.id
      rw [hx, Option.map_some]
    · refine stageOf_congr fun i => ?_
      rw [hx]
      exact begun_congr_head rfl rfl
  | @dispatch x q hpc hcurr hq l =>
    have hw : s.written clk = some (RRState.lineOf (dispatched x clk (s.forks + 1)) clk) := by
      rw [written, hpc, hcurr, hq]
      rfl
    obtain ⟨hid, -⟩ := dispatched_fields x clk (s.forks + 1)
    have hpid := dispatched_pid x clk (s.forks + 1)
    have hlState := dispatched_lState x clk (s.forks + 1)
    have hlive : (s.currProcess.toList ++ s.readyQueue).Perm (x :: q) := by
      rw [hcurr, hq]
      exact List.Perm.refl _
    have hstage := hn.stage_of_head hlive
    obtain ⟨hfin, -⟩ := hn.of_head hlive
    have hnone : s.view.running = none := by
      rw [view, hcurr]
      rfl
    by_cases hp : x.pid = -1
    · rw [if_pos hp] at hstage hpid hlState
      refine Or.inr ⟨_, .start, hw, congrArg LogState.act hlState, ?_⟩
      refine Cpu.step_start.mpr ⟨⟨hnone, (congrArg s.view.stage hid).trans hstage⟩, Cpu.ext rfl ?_⟩
      funext i
      show Function.update (stageOf _ _) (dispatched x clk (s.forks + 1)).id .begun i =
        stageOf (dispatched x clk (s.forks + 1) :: q) s.finished i
      rw [hid]
      by_cases hi : i = x.id
      · subst hi
        have hne : (dispatched x clk (s.forks + 1)).pid ≠ -1 := by
          have := hf.forks
          omega
        rw [Function.update_self, stageOf, if_neg hfin,
          if_pos (begun_cons.mpr (Or.inl ⟨hid, hne⟩))]
      · rw [Function.update_of_ne hi, stageOf]
        refine if_congr Iff.rfl rfl (if_congr ?_ rfl rfl)
        rw [Begun.perm hlive, begun_cons_of_ne (Ne.symm hi),
          begun_cons_of_ne (hid ▸ Ne.symm hi)]
    · rw [if_neg hp] at hstage hpid hlState
      refine Or.inr ⟨_, .resume, hw, congrArg LogState.act hlState, ?_⟩
      refine Cpu.step_resume.mpr ⟨⟨hnone, (congrArg s.view.stage hid).trans hstage⟩, Cpu.ext rfl ?_⟩
      refine stageOf_congr fun i => ?_
      rw [Begun.perm hlive]
      exact (begun_congr_head hid hpid).symm
  | @stop x hpc hx l =>
    refine Or.inr ⟨_, .stop, by rw [written, hpc, hx]; rfl, rfl,
      Cpu.step_stop.mpr ⟨by rw [view, hx]; rfl, Cpu.ext rfl ?_⟩⟩
    refine stageOf_congr fun i => ?_
    have hq : Begun i (Queue.enqueuePriority s.readyQueue (stopped x s.shmRT)) ↔
        Begun i (x :: s.readyQueue) := begun_enqueue.trans (begun_congr_head rfl rfl)
    rw [hx]
    exact hq.symm
  | leave hpc _ | spin hpc _ _ | begin hpc _ _ | running hpc _ | signalled hpc _ _ | closed hpc _ _
  | listen hpc _ _ | skip hpc _ _ | sync hpc _ _ _ | last hpc _ _ | drop hpc _ _ | waitStart hpc
  | waited hpc _ | permit hpc => exact Or.inl ⟨by rw [written, hpc], rfl⟩

/-! ### The priorities -/

/-- Of the processes `l`, the one with the id `i` is related to the one with the id `j` by its
priority value. -/
def Ranks (l : List ProcessData) (R : ℤ → ℤ → Prop) (i j : ℤ) : Prop :=
  ∃ d ∈ l, ∃ e ∈ l, d.id = i ∧ e.id = j ∧ R d.priority e.priority

theorem Ranks.mono {l m : List ProcessData} {R : ℤ → ℤ → Prop} (h : Ranks l R i j)
    (hlm : l ⊆ m) : Ranks m R i j := by
  obtain ⟨d, hd, e, he, hrest⟩ := h
  exact ⟨d, hlm hd, e, hlm he, hrest⟩

/-- The id of a process with its priority value. -/
def key (x : PCB) : ℤ × ℤ := (x.id, x.priority)

/-- **The processes have the ids and the priority values that were sent.** -/
def Known (s : State) : Prop :=
  s.pcbs.map key ⊆ s.received.map fun d => (d.id, d.priority)

theorem Known.of_mem (h : Known s) (hx : x ∈ s.pcbs) :
    ∃ d ∈ s.received, d.id = x.id ∧ d.priority = x.priority := by
  obtain ⟨d, hd, he⟩ := List.mem_map.mp (h (List.mem_map_of_mem hx))
  exact ⟨d, hd, congrArg Prod.fst he, congrArg Prod.snd he⟩

theorem Known.of_perm (h : Known s) (hp : (s'.pcbs.map key).Perm (s.pcbs.map key))
    (hr : s'.received = s.received) : Known s' := by
  rw [Known, hr]
  exact fun e he => h (hp.subset he)

theorem Known.moves (h : Known s) (hm : Moves clk s s') : Known s' := by
  cases hm with
  | @arrive msg _ _ _ _ =>
    have hperm : (s.currProcess.toList ++ Queue.enqueuePriority s.readyQueue (createPCB msg) ++
        s.finished).Perm (createPCB msg :: s.pcbs) :=
      (((Queue.perm_enqueuePriority s.readyQueue _).append_left _).trans
        List.perm_middle).append_right _
    have hreceived : (s.received ++ [msg]).map (fun d => (d.id, d.priority)) =
        s.received.map (fun d => (d.id, d.priority)) ++ [(msg.id, msg.priority)] := List.map_append
    intro e he
    show e ∈ (s.received ++ [msg]).map _
    rw [hreceived]
    rcases List.mem_cons.mp ((hperm.map key).mem_iff.mp he) with rfl | he
    · exact List.mem_append_right _ (List.mem_singleton.mpr rfl)
    · exact List.mem_append_left _ (h he)
  | @reap x _ hx _ _ =>
    refine h.of_perm ?_ rfl
    rw [pcbs, pcbs, hx, ← List.append_assoc, List.map_append]
    exact List.perm_append_singleton _ _
  | preempt _ hx _ _ =>
    refine h.of_perm (List.Perm.of_eq ?_) rfl
    rw [pcbs, pcbs, hx]
    rfl
  | @dispatch x q _ hcurr hq _ =>
    obtain ⟨hid, hprio, -⟩ := dispatched_fields x clk (s.forks + 1)
    have hkey : key (dispatched x clk (s.forks + 1)) = key x := by rw [key, key, hid, hprio]
    refine h.of_perm (List.Perm.of_eq ?_) rfl
    rw [pcbs, pcbs, hcurr, hq]
    simp only [Option.toList_some, Option.toList_none, List.nil_append, List.cons_append,
      List.map_cons, hkey]
  | @stop x _ hx _ =>
    refine h.of_perm ?_ rfl
    rw [pcbs, pcbs, hx]
    exact ((Queue.perm_enqueuePriority s.readyQueue (stopped x s.shmRT)).append_right
      s.finished).map key
  | _ => exact h.of_perm (List.Perm.refl _) rfl

/-- The process that gets the processor comes before all that have begun. -/
def First (l : List ProcessData) (c : Cpu ℤ) (e : Act × ℤ) : Prop :=
  e.1.takes = true → ∀ j, c.stage j = .begun → Ranks l (· ≤ ·) e.2 j

/-- What is behind a stop comes before what is stopped. -/
def Yields (l : List ProcessData) (e f : Act × ℤ) : Prop := e.1 = .stop → Ranks l (· < ·) f.2 e.2

/-- **The log shows the priorities.** -/
structure Disciplined (s : State) : Prop where
  takes : Obeys (First s.received) (timeline s.log)
  yields : (timeline s.log).IsChain (Yields s.received)
  /-- A process is stopped for a ready one. -/
  stopping : s.pc = .stop → ∀ x, s.currProcess = some x → ∃ y ∈ s.readyQueue,
    y.priority < x.priority
  stopped : ∀ i, (timeline s.log).getLast? = some (.stop, i) → ∃ y ∈ s.readyQueue,
    ∃ d ∈ s.received, d.id = i ∧ y.priority < d.priority

/-- Nothing is written. -/
theorem Disciplined.quiet (h : Disciplined s) (hlog : s'.log = s.log)
    (hq : s'.readyQueue = s.readyQueue) (hrec : s'.received = s.received) (hpc : s'.pc ≠ .stop) :
    Disciplined s' where
  takes := by
    rw [hlog, hrec]
    exact h.takes
  yields := by
    rw [hlog, hrec]
    exact h.yields
  stopping hc := absurd hc hpc
  stopped := by
    rw [hlog, hq, hrec]
    exact h.stopped

/-- The line of an act. -/
theorem timeline_written {line : LogLine} {a : Act}
    (hlog : s'.log = s.log ++ (s.written clk).toList) (hw : s.written clk = some line)
    (ha : line.lState.act = some a) : timeline s'.log = timeline s.log ++ [(a, line.id)] := by
  rw [hlog, hw]
  exact timeline_concat ha

/-- A running process is let go of, or stopped. -/
theorem Disciplined.leave {a : Act} (h : Disciplined s)
    (hrep : replay (timeline s.log) = some s.view) (hx : s.currProcess = some x)
    (ha : a.takes = false) (hlog : timeline s'.log = timeline s.log ++ [(a, x.id)])
    (hrec : s'.received = s.received) :
    Obeys (First s'.received) (timeline s'.log) ∧
      (timeline s'.log).IsChain (Yields s'.received) := by
  rw [hlog, hrec]
  refine ⟨h.takes.concat fun c hc => ?_, List.isChain_append.mpr
    ⟨h.yields, List.isChain_singleton _, fun e he f hf => ?_⟩⟩
  · intro htakes
    exact absurd (ha.symm.trans htakes) (by simp)
  · -- the processor is not free
    intro hstop
    obtain ⟨b, j⟩ := e
    obtain rfl : b = .stop := hstop
    have hfree := running_of_getLast hrep he
    rw [view, hx] at hfree
    exact absurd hfree (by simp)

/-- The first ready process gets the processor. -/
theorem Disciplined.enter {a : Act} {q : List PCB} (h : Disciplined s) (hk : Known s)
    (hrank : Ranked s) (hrep : replay (timeline s.log) = some s.view) (hcurr : s.currProcess = none)
    (hq : s.readyQueue = x :: q) (hlog : timeline s'.log = timeline s.log ++ [(a, x.id)])
    (hrec : s'.received = s.received) :
    Obeys (First s'.received) (timeline s'.log) ∧
      (timeline s'.log).IsChain (Yields s'.received) := by
  have hsorted := hrank.sorted
  rw [hq] at hsorted
  have hfirst := le_of_sorted_cons hsorted
  obtain ⟨d, hd, hid, hprio⟩ :=
    hk.of_mem (mem_pcbs_of_ready (y := x) (hq ▸ List.mem_cons_self))
  rw [hlog, hrec]
  refine ⟨h.takes.concat fun c hc => ?_, List.isChain_append.mpr
    ⟨h.yields, List.isChain_singleton _, fun e he f hf => ?_⟩⟩
  · rintro - j hj
    obtain rfl := Option.some.inj (hrep.symm.trans hc)
    -- who has begun is ready
    have hbegun : Begun j (x :: q) := by
      have hj : stageOf _ _ j = .begun := hj
      rw [stageOf, hcurr, hq] at hj
      split_ifs at hj with hfin hb
      exact hb
    obtain ⟨y, hy, rfl, -⟩ := hbegun
    obtain ⟨d', hd', hid', hprio'⟩ := hk.of_mem (mem_pcbs_of_ready (hq ▸ hy))
    exact ⟨d, hd, d', hd', hid, hid', hprio ▸ hprio' ▸ hfirst y hy⟩
  · intro hstop
    obtain ⟨b, j⟩ := e
    obtain rfl : b = .stop := hstop
    obtain rfl : (a, x.id) = f := Option.some.inj hf
    obtain ⟨y, hy, d', hd', hid', hlt⟩ := h.stopped j he
    exact ⟨d, hd, d', hd', hid, hid', hprio ▸ (hfirst y (hq ▸ hy)).trans_lt hlt⟩

/-- **Every move keeps the discipline.** -/
theorem Disciplined.moves (h : Disciplined s) (hm : Moves clk s s')
    (hlog : s'.log = s.log ++ (s.written clk).toList) (hk : Known s) (hrank : Ranked s)
    (hrep : replay (timeline s.log) = some s.view) : Disciplined s' := by
  have hsame : s.written clk = none → s'.log = s.log := fun hw => by
    rw [hlog, hw, Option.toList_none, List.append_nil]
  cases hm with
  | @arrive msg rest hpc _ _ =>
    have hlog := hsame (by rw [written, hpc])
    have hsub : s.received ⊆ s.received ++ [msg] := List.subset_append_left _ _
    refine ⟨?_, ?_, fun hc => absurd (hpc.symm.trans hc) (by simp), fun i hi => ?_⟩
    · exact h.takes.mono fun c e hfirst htakes j hj => (hfirst htakes j hj).mono hsub
    · exact h.yields.imp fun e f hy hstop => (hy hstop).mono hsub
    · obtain ⟨y, hy, d, hd, he⟩ := h.stopped i hi
      exact ⟨y, Queue.mem_enqueuePriority.mpr (Or.inr hy), d, hsub hd, he⟩
  | @reap x hpc hx _ l =>
    have hw : s.written clk = some (RRState.lineOf (reaped x clk s.shmRT) clk) := by
      rw [written, hpc, hx]
      rfl
    have hline := timeline_written hlog hw (a := .finish) rfl
    obtain ⟨htakes, hyields⟩ := h.leave hrep hx rfl hline rfl
    refine ⟨htakes, hyields, fun hc => absurd hc (by simp), fun i hi => ?_⟩
    rw [hline, List.getLast?_concat] at hi
    exact absurd hi (by simp)
  | idle hpc _ hnone =>
    refine h.quiet (hsame ?_) rfl rfl (by simp)
    rw [written, hpc]
    dsimp only
    split_ifs with hcurr
    · rw [hnone hcurr]
      rfl
    · rfl
  | @preempt x y q hpc hx hq hlt =>
    have hlog := hsame (by rw [written, hpc, hx]; rfl)
    refine ⟨h.takes, h.yields, fun _ z hz => ⟨y, ?_, ?_⟩, h.stopped⟩
    · exact hq ▸ List.mem_cons_self
    · rw [← Option.some.inj hz]
      exact hlt
  | @dispatch x q hpc hcurr hq l =>
    have hw : s.written clk = some (RRState.lineOf (dispatched x clk (s.forks + 1)) clk) := by
      rw [written, hpc, hcurr, hq]
      rfl
    obtain ⟨hid, -⟩ := dispatched_fields x clk (s.forks + 1)
    have hact : (dispatched x clk (s.forks + 1)).lState.act =
        some (if x.pid = -1 then .start else .resume) := by
      rw [dispatched_lState]
      split_ifs <;> rfl
    have hline := timeline_written hlog hw hact
    rw [show (RRState.lineOf (dispatched x clk (s.forks + 1)) clk).id = x.id from hid] at hline
    obtain ⟨htakes, hyields⟩ := h.enter hk hrank hrep hcurr hq hline rfl
    refine ⟨htakes, hyields, fun hc => absurd hc (by simp), fun i hi => ?_⟩
    rw [hline, List.getLast?_concat] at hi
    have hstop := congrArg Prod.fst (Option.some.inj hi)
    dsimp only at hstop
    split_ifs at hstop
  | @stop x hpc hx l =>
    have hw : s.written clk = some (RRState.lineOf (State.stopped x s.shmRT) clk) := by
      rw [written, hpc, hx]
      rfl
    have hline := timeline_written hlog hw (a := .stop) rfl
    obtain ⟨htakes, hyields⟩ := h.leave hrep hx rfl hline rfl
    refine ⟨htakes, hyields, fun hc => absurd hc (by simp), fun i hi => ?_⟩
    rw [hline, List.getLast?_concat] at hi
    obtain ⟨y, hy, hlt⟩ := h.stopping hpc x hx
    obtain ⟨d, hd, hid, hprio⟩ := hk.of_mem (mem_pcbs_of_curr hx)
    refine ⟨y, Queue.mem_enqueuePriority.mpr (Or.inr hy), d, hd, ?_, hprio ▸ hlt⟩
    exact hid.trans (congrArg Prod.snd (Option.some.inj hi))
  | spin hpc _ _ => exact h
  | leave hpc _ | begin hpc _ _ | running hpc _ | signalled hpc _ _ | closed hpc _ _
  | listen hpc _ _ | waitStart hpc | waited hpc _ | permit hpc =>
    exact h.quiet (hsame (by rw [written, hpc])) rfl rfl (by simp)
  | drop hpc _ _ => exact h.quiet (hsame (by rw [written, hpc])) rfl rfl (by simp [hpc])
  | skip hpc _ _ | sync hpc _ _ _ | last hpc _ _ =>
    refine h.quiet (hsame (by rw [written, hpc])) rfl rfl ?_
    rcases behindReceive_cases s.now with ⟨-, hb⟩ | ⟨-, hb⟩ <;> simp [hb]

/-! ### The times -/

/-- A line is written with the time of its move. -/
theorem written_time {line : LogLine} (h : s.written clk = some line) : line.time = clk := by
  rw [written] at h
  split at h
  · obtain ⟨x, -, rfl⟩ := Option.map_eq_some_iff.mp h
    rw [RRState.lineOf, reaped]
    split_ifs <;> rfl
  · obtain ⟨x, -, rfl⟩ := Option.map_eq_some_iff.mp h
    exact RRState.lineOf_time (by simp [State.stopped]) _
  · split_ifs at h
    obtain ⟨x, -, rfl⟩ := Option.map_eq_some_iff.mp h
    refine RRState.lineOf_time ?_ _
    rw [dispatched_lState]
    split_ifs <;> simp
  · exact absurd h (by simp)

/-- **The lines are in the order of their times**, and none is ahead of the clock. -/
def Dated (clk : ℤ) (s : State) : Prop :=
  (s.log.map LogLine.time).Pairwise (· ≤ ·) ∧ ∀ line ∈ s.log, line.time ≤ clk

theorem Dated.next (h : Dated clk s) (hlog : s'.log = s.log ++ (s.written clk).toList) :
    Dated clk s' := by
  rw [Dated, hlog]
  cases hw : s.written clk with
  | none =>
    rw [Option.toList_none, List.append_nil]
    exact h
  | some line =>
    have ht := written_time hw
    rw [Option.toList_some, List.map_append, List.map_singleton, ht]
    refine ⟨List.pairwise_append.mpr ⟨h.1, List.pairwise_singleton _ _, fun t hmem u hu => ?_⟩,
      fun l hl => ?_⟩
    · obtain ⟨l, hl, rfl⟩ := List.mem_map.mp hmem
      rw [List.mem_singleton.mp hu]
      exact h.2 l hl
    · rcases List.mem_append.mp hl with hl | hl
      · exact h.2 l hl
      · rw [List.mem_singleton.mp hl, ht]

end State

namespace World

variable {w w' : World} {e : Event}

/-! ### The runs -/

/-- **What the log shows** between the steps of a run. -/
structure Logged (w : World) : Prop where
  view : replay (timeline w.sch.log) = some w.sch.view
  known : w.sch.Known
  disciplined : w.sch.Disciplined
  forked : w.sch.Forked
  dated : State.Dated w.clock w.sch

theorem start_logged {l : List ProcessData} {t : ℤ} (hl : CpuScheduler.World.Workload l)
    (ht : 0 ≤ t) : Logged (start l t) where
  view := rfl
  known := List.nil_subset _
  disciplined :=
    { takes := obeys_nil
      yields := List.isChain_nil
      stopping := fun (hc : Pc.top = .stop) => absurd hc (by simp)
      stopped := fun i (hi : none = some _) => absurd hi (by simp) }
  forked := (start_kept hl ht).forked
  dated := ⟨List.Pairwise.nil, fun _ hl => absurd hl List.not_mem_nil⟩

/-- A message does not matter. -/
theorem Logged.post (h : Logged w) (d : ProcessData) (g : Generator) : Logged (w.post d g) where
  view := h.view
  known := h.known
  disciplined := ⟨h.disciplined.takes, h.disciplined.yields, h.disciplined.stopping,
    h.disciplined.stopped⟩
  forked := ⟨h.forked.once, h.forked.range, h.forked.started, h.forked.ended, h.forked.known,
    h.forked.children, h.forked.forks⟩
  dated := h.dated

theorem Logged.step (h : Logged w) (hrank : w.sch.Ranked) (hn : w.sch.Named)
    (hst : w.next e = some w') : Logged w' := by
  cases e with
  | sched =>
    obtain ⟨s, hs, rfl⟩ := Option.map_eq_some_iff.mp hst
    have hs := toOption_eq_some.mp hs
    have hlog := State.next_log hs
    have hm := State.next_moves hs
    refine ⟨?_, h.known.moves hm, h.disciplined.moves hm hlog h.known hrank h.view,
      h.forked.moves hm, h.dated.next hlog⟩
    rcases hm.simulates hn h.forked with ⟨hw, hv⟩ | ⟨line, a, hw, ha, hv⟩
    · rw [hlog, hw, Option.toList_none, List.append_nil, hv]
      exact h.view
    · rw [hlog, hw]
      exact (replay_timeline h.view ha).trans hv
  | child pid =>
    obtain ⟨s, hs, rfl⟩ := Option.map_eq_some_iff.mp hst
    have he := State.childStep_executes hs
    have hforked := h.forked.executes he
    cases he with
    | exit _ _ _ _ | tick _ _ _ _ _ =>
      exact ⟨h.view, h.known, ⟨h.disciplined.takes, h.disciplined.yields, h.disciplined.stopping,
        h.disciplined.stopped⟩, hforked, h.dated⟩
  | tick =>
    cases next_steps hst with
    | tick =>
      refine ⟨h.view, h.known, h.disciplined, h.forked, h.dated.1, fun line hl => ?_⟩
      exact (h.dated.2 line hl).trans (Int.le_add_one le_rfl)
  | observe =>
    cases next_steps hst with
    | observe _ _ => exact ⟨h.view, h.known, h.disciplined, h.forked, h.dated⟩
  | send =>
    cases next_steps hst with
    | send _ _ _ => exact h.post _ _
  | sync =>
    cases next_steps hst with
    | sync _ _ => exact h.post _ _
  | last =>
    cases next_steps hst with
    | last _ _ _ => exact h.post _ _

/-- What is known of the runs of the workload. -/
theorem named_of_conserved {l : List ProcessData} (hl : CpuScheduler.World.Workload l)
    (hc : Conserved l w) : w.sch.Named := by
  have hids := hl.ids
  rw [← hc.source, hc.sent, List.map_append, List.map_append] at hids
  exact hc.placed.nodup_iff.mpr hids.of_append_left.of_append_left

theorem reachable_logged (h : system.Reachable w) : Logged w := by
  refine h.invariant_of (J := fun w => system.Reachable w) (P := Logged) (fun _ hw => hw) ?_ ?_
  · rintro w ⟨l, t, hl, ht, rfl⟩
    exact start_logged hl ht
  · rintro w w' hw hlog ⟨e, hst, -⟩
    obtain ⟨hrank, l, hl, hc⟩ := conserved_of_reachable hw
    exact hlog.step hrank (named_of_conserved hl hc) hst

/-- **The log of HPF.** In every state of every run, the lines of the log are the acts of a
processor that executes one process at a time, and they lead to what the scheduler has in its
state. Whoever gets the processor has the lowest priority value of all that have begun and are not
done, and a process is only stopped for one with a lower value, which gets the processor next. The
lines are in the order of their times. -/
theorem reachable_log (h : system.Reachable w) :
    Exclusive (timeline w.sch.log) ∧ replay (timeline w.sch.log) = some w.sch.view ∧
      Obeys (State.First w.gen.sent) (timeline w.sch.log) ∧
      (timeline w.sch.log).IsChain (State.Yields w.gen.sent) ∧
      (w.sch.log.map LogLine.time).Pairwise (· ≤ ·) ∧ ∀ line ∈ w.sch.log, line.time ≤ w.clock := by
  have hlog := reachable_logged h
  obtain ⟨-, l, -, hc⟩ := conserved_of_reachable h
  have hsub : w.sch.received ⊆ w.gen.sent := by
    rw [hc.sent]
    exact List.subset_append_left _ _
  refine ⟨replay_exclusive hlog.view, hlog.view, ?_, ?_, hlog.dated.1, hlog.dated.2⟩
  · exact hlog.disciplined.takes.mono fun c e hfirst htakes j hj => (hfirst htakes j hj).mono hsub
  · exact hlog.disciplined.yields.imp fun e f hy hstop => (hy hstop).mono hsub

theorem reachable_log_urgent : ∃ w, TransitionSystem.playAll next (start urgent 1) urgentRun =
      some w ∧ timeline w.sch.log = [(.start, 7), (.stop, 7), (.start, 8)] ∧
    Exclusive (timeline w.sch.log) ∧ replay (timeline w.sch.log) = some w.sch.view ∧
      Obeys (State.First w.gen.sent) (timeline w.sch.log) ∧
      (timeline w.sch.log).IsChain (State.Yields w.gen.sent) ∧
      (w.sch.log.map LogLine.time).Pairwise (· ≤ ·) ∧ ∀ line ∈ w.sch.log, line.time ≤ w.clock := by
  have hrun : (TransitionSystem.playAll next (start urgent 1) urgentRun).map (fun w =>
      timeline w.sch.log) = some [(.start, 7), (.stop, 7), (.start, 8)] := by
    decide +kernel
  obtain ⟨w, hw, hlog⟩ := Option.map_eq_some_iff.mp hrun
  have hstart : system.Reachable (start urgent 1) :=
    .init ⟨urgent, 1, workload_urgent, by decide, rfl⟩
  exact ⟨w, hw, hlog, reachable_log (hstart.playAll next_step hw)⟩

/-! ### The end of a run -/

/-- **Nothing is sent behind the last message**, and the loop is left only when there is nothing
left to do. -/
structure Closed (w : World) : Prop where
  last : (w.sch.receivingProcesses = false ∨ ∃ d ∈ w.sch.msgq, d.mtype = 5) → w.gen.queue = []
  closed : w.sch.receivingProcesses = false → ∀ d ∈ w.sch.msgq, d.mtype ≠ 1
  left : w.sch.pc = .exited → w.sch.goesOn = false

theorem Closed.moves {s : State} (h : Closed w) (hm : State.Moves clk w.sch s) :
    Closed { w with sch := s } := by
  have hmem : ∀ {d : ProcessData} {rest : List ProcessData},
      MsgQueue.rcv ProcessData.mtype (-5) w.sch.msgq = some (d, rest) → d ∈ w.sch.msgq ∧
        rest ⊆ w.sch.msgq := by
    intro d rest hrcv
    have hperm := MsgQueue.perm_of_rcv hrcv
    exact ⟨hperm.mem_iff.mpr List.mem_cons_self, fun x hx =>
      hperm.mem_iff.mpr (List.mem_cons_of_mem _ hx)⟩
  have hlast : ∀ rest ⊆ w.sch.msgq, (w.sch.receivingProcesses = false ∨
      ∃ d ∈ rest, d.mtype = 5) → w.gen.queue = [] := by
    rintro rest hsub (hrec | ⟨d, hd, h5⟩)
    · exact h.last (Or.inl hrec)
    · exact h.last (Or.inr ⟨d, hsub hd, h5⟩)
  have hbehind : State.behindReceive w.sch.now ≠ .exited := by
    rcases State.behindReceive_cases w.sch.now with ⟨-, hb⟩ | ⟨-, hb⟩ <;> simp [hb]
  have hreceive : w.sch.pc = .receive → w.sch.pc ≠ .exited := fun hpc => by simp [hpc]
  cases hm with
  | spin _ _ _ => exact h
  | leave _ hgo => exact ⟨h.last, h.closed, fun _ => hgo⟩
  | @arrive d rest hpc hrcv _ =>
    obtain ⟨-, hsub⟩ := hmem hrcv
    exact ⟨hlast rest hsub, fun hrec d hd => h.closed hrec d (hsub hd),
      fun hc => absurd hc (hreceive hpc)⟩
  | @drop d rest hpc hrcv _ =>
    obtain ⟨-, hsub⟩ := hmem hrcv
    exact ⟨hlast rest hsub, fun hrec d hd => h.closed hrec d (hsub hd),
      fun hc => absurd hc (hreceive hpc)⟩
  | @sync d rest _ hrcv _ _ =>
    obtain ⟨-, hsub⟩ := hmem hrcv
    exact ⟨hlast rest hsub, fun hrec d hd => h.closed hrec d (hsub hd),
      fun hc => absurd hc hbehind⟩
  | @last d rest _ hrcv h5 =>
    refine ⟨fun _ => h.last (Or.inr ⟨d, (hmem hrcv).1, h5⟩),
      fun _ => (CpuScheduler.World.ne_one_of_rcv hrcv (by rw [h5]; decide)).2,
      fun hc => absurd hc hbehind⟩
  | skip _ _ _ => exact ⟨h.last, h.closed, fun hc => absurd hc hbehind⟩
  | _ => exact ⟨h.last, h.closed, fun hc => absurd hc (by simp)⟩

/-- A message is sent. -/
theorem Closed.post (h : Closed w) {d : ProcessData} {g : Generator}
    (hq : d.mtype = 5 ∨ w.gen.queue = [] → g.queue = [])
    (hopen : d.mtype = 1 → w.gen.queue ≠ []) : Closed (w.post d g) where
  last hl := by
    rcases hl with hrec | ⟨d', hd', h5⟩
    · exact hq (Or.inr (h.last (Or.inl hrec)))
    · rcases List.mem_append.mp hd' with hd' | hd'
      · exact hq (Or.inr (h.last (Or.inr ⟨d', hd', h5⟩)))
      · exact hq (Or.inl (List.mem_singleton.mp hd' ▸ h5))
  closed hrec d' hd' := by
    rcases List.mem_append.mp hd' with hd' | hd'
    · exact h.closed hrec d' hd'
    · rw [List.mem_singleton.mp hd']
      exact fun h1 => hopen h1 (h.last (Or.inl hrec))
  left := h.left

theorem Closed.step (h : Closed w) (hmt : ∀ d ∈ w.gen.queue, d.mtype = 1) (hs : Steps w e w') :
    Closed w' := by
  cases hs with
  | tick => exact ⟨h.last, h.closed, h.left⟩
  | sched hm => exact h.moves hm
  | child he =>
    cases he with
    | exit _ _ _ _ | tick _ _ _ _ _ => exact ⟨h.last, h.closed, h.left⟩
  | observe _ _ => exact ⟨h.last, h.closed, h.left⟩
  | @send t d q _ hq _ =>
    have hd : d.mtype = 1 := hmt d (hq ▸ List.mem_cons_self)
    have hne : w.gen.queue ≠ [] := by
      rw [hq]
      simp
    refine h.post ?_ fun _ => hne
    rintro (h5 | hnil)
    · exact absurd (hd.symm.trans h5) (by simp)
    · exact absurd hnil hne
  | sync _ _ =>
    refine h.post ?_ fun (hc : (2 : ℤ) = 1) => absurd hc (by decide)
    rintro ((h5 : (2 : ℤ) = 5) | hnil)
    · exact absurd h5 (by decide)
    · exact hnil
  | last hq _ _ => exact h.post (fun _ => hq) fun (hc : (5 : ℤ) = 1) => absurd hc (by decide)

theorem reachable_closed (h : system.Reachable w) : Closed w := by
  refine h.invariant_of (J := fun w => system.Reachable w) (P := Closed) (fun _ hw => hw) ?_ ?_
  · rintro w ⟨l, t, -, -, rfl⟩
    refine ⟨?_, fun _ => List.forall_mem_nil _, fun (hc : Pc.top = .exited) => absurd hc (by simp)⟩
    rintro ((hc : true = false) | ⟨d, hd, -⟩)
    · exact absurd hc (by simp)
    · exact absurd hd List.not_mem_nil
  · rintro w w' hw hclosed ⟨e, hst, -⟩
    obtain ⟨-, l, hl, hc⟩ := conserved_of_reachable hw
    refine hclosed.step (fun d hd => hl.mtype d ?_) (next_steps hst)
    rw [← hc.source]
    exact List.mem_append_right _ hd

/-- **When HPF has left its loop**, everything was sent and received, and the log tells of each
process of the workload from the start to the finish, and of no other. -/
theorem exited_log (h : system.Reachable w) (hpc : w.sch.pc = .exited) :
    w.gen.queue = [] ∧ w.sch.received = w.gen.sent ∧
      (∀ d ∈ w.gen.sent, Course .done false (own d.id (timeline w.sch.log))) ∧
      ∀ e ∈ timeline w.sch.log, e.2 ∈ w.gen.sent.map ProcessData.id := by
  have hclosed := reachable_closed h
  have hlog := reachable_logged h
  obtain ⟨-, l, hl, hc⟩ := conserved_of_reachable h
  have hgo := hclosed.left hpc
  simp only [State.goesOn, Bool.or_eq_false_iff, Bool.not_eq_false', Queue.isEmpty,
    List.isEmpty_iff, Option.isSome_eq_false_iff, Option.isNone_iff_eq_none] at hgo
  obtain ⟨⟨hready, hrec⟩, hcurr⟩ := hgo
  have hsent : w.sch.received = w.gen.sent := by
    rw [hc.sent, List.filter_eq_nil_iff.mpr fun d hd => by simpa using hclosed.closed hrec d hd,
      List.append_nil]
  have hids : (w.sch.finished.map PCB.id).Perm (w.gen.sent.map ProcessData.id) := by
    have hplaced := hc.placed
    rw [State.Placed, State.pcbs, hcurr, hready, hsent] at hplaced
    exact hplaced
  have hrun : w.sch.view.running = none := by
    rw [State.view, hcurr]
    rfl
  refine ⟨hclosed.last (Or.inl hrec), hsent, fun d hd => ?_, fun e he => ?_⟩
  · have hstage : w.sch.view.stage d.id = .done :=
      if_pos (hids.mem_iff.mpr (List.mem_map_of_mem hd))
    have hcourse := replay_course hlog.view d.id
    rw [hstage, hrun, decide_eq_false (by simp)] at hcourse
    exact hcourse
  · by_contra hmem
    -- a process that is not there has done nothing
    have hstage : w.sch.view.stage e.2 = .fresh := by
      show State.stageOf _ _ _ = _
      rw [State.stageOf, if_neg fun hfin => hmem (hids.mem_iff.mp hfin), hcurr, hready]
      exact if_neg fun hb => absurd hb (by simp [State.Begun])
    have hcourse := replay_course hlog.view e.2
    rw [hstage] at hcourse
    exact absurd (mem_own he) (by rw [hcourse.fresh_eq_nil]; simp)

/-- The rest of the run: the second process finishes, then the first one, and the loop is left. -/
def urgentLeft : List Event := urgentRun ++ urgentRest ++ [.sched]

theorem exited_log_urgent : ∃ w,
    TransitionSystem.playAll next (start urgent 1) urgentLeft = some w ∧
    timeline w.sch.log = [(.start, 7), (.stop, 7), (.start, 8), (.finish, 8), (.resume, 7),
      (.finish, 7)] ∧
    w.gen.queue = [] ∧ w.sch.received = w.gen.sent ∧
      (∀ d ∈ w.gen.sent, Course .done false (own d.id (timeline w.sch.log))) ∧
      ∀ e ∈ timeline w.sch.log, e.2 ∈ w.gen.sent.map ProcessData.id := by
  have hrun : (TransitionSystem.playAll next (start urgent 1) urgentLeft).map (fun w =>
      (w.sch.pc, timeline w.sch.log)) = some (.exited, [(.start, 7), (.stop, 7), (.start, 8),
        (.finish, 8), (.resume, 7), (.finish, 7)]) := by
    decide +kernel
  obtain ⟨w, hw, he⟩ := Option.map_eq_some_iff.mp hrun
  simp only [Prod.mk.injEq] at he
  obtain ⟨hpc, hlog⟩ := he
  have hstart : system.Reachable (start urgent 1) :=
    .init ⟨urgent, 1, workload_urgent, by decide, rfl⟩
  exact ⟨w, hw, hlog, exited_log (hstart.playAll next_step hw) hpc⟩

end World

end Hpf

end CpuScheduler
