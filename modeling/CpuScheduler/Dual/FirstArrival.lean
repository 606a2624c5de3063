import CpuScheduler.Dual.Carried

/-!
# The first arrival of a sub-scheduler

A process comes into the ready queue of a sub-scheduler at four places: in the two loops of
`main` that receive messages, in `stall_sig` and in `steal_handler`. The first three note the
arrival of the first process in `perf.first_arrival`; `steal_handler` does not. It gives
back the last process at once, so that a process only stays behind if it has taken two or
more: `CpuScheduler.Dual.Arrivals.Noting` is the condition that it does not while nothing has
been noted.

The history of a run says which processes have stayed, whatever the place they came in at: those
that are in the ready queue after a step behind everything that was there before
(`CpuScheduler.Dual.Arrivals.entered`).
-/

namespace CpuScheduler

namespace Dual

variable {clk rem : ℤ} {P : Params}

/-- The job of a process that has not arrived at tick -1. -/
def Dated (j : Job) : Prop := j.2.1 ≠ -1

namespace Sub

variable {s s' : Sub} {l : List ℤ}

/-- The arrivals of the processes that have come into the ready queue, and stayed. -/
def entered (s s' : Sub) : List ℤ := (s'.readyQueue.drop s.readyQueue.length).map PCB.arrival

/-- What the arrivals `l` of the processes that have stayed say of a sub-scheduler. -/
structure Noted (s : Sub) (l : List ℤ) : Prop where
  first : s.perf.firstArrival = l.head?.getD (-1)
  dated : ∀ t ∈ l, t ≠ -1
  empty : l = [] → s.readyQueue = [] ∧ s.currProcess = none ∧ s.perf.numProcs ≤ 0

/-- Nothing has been noted exactly as long as no process has stayed. -/
theorem Noted.eq_nil_iff (h : s.Noted l) : s.perf.firstArrival = -1 ↔ l = [] := by
  rw [h.first]
  cases l with
  | nil => exact iff_of_true rfl rfl
  | cons t l => exact iff_of_false (h.dated t List.mem_cons_self) (List.cons_ne_nil t l)

theorem entered_of_le (h : s'.readyQueue.length ≤ s.readyQueue.length) : s.entered s' = [] := by
  rw [entered, List.drop_eq_nil_of_le h, List.map_nil]

/-- Nothing comes in. -/
theorem Noted.quiet (h : s.Noted l) (hr : s'.readyQueue.length ≤ s.readyQueue.length)
    (hf : s'.perf.firstArrival = s.perf.firstArrival)
    (hc : s.readyQueue = [] → s.currProcess = none →
      s'.currProcess = none ∧ s'.perf.numProcs ≤ s.perf.numProcs) :
    s'.Noted (l ++ s.entered s') := by
  rw [entered_of_le hr, List.append_nil]
  refine ⟨hf.trans h.first, h.dated, fun hl => ?_⟩
  obtain ⟨hq, hcurr, hn⟩ := h.empty hl
  obtain ⟨hcurr', hn'⟩ := hc hq hcurr
  rw [hq] at hr
  exact ⟨List.length_eq_zero_iff.mp (Nat.le_zero.mp hr), hcurr', hn'.trans hn⟩

/-- The arrival that is noted when processes are received. -/
def noting (fa : ℤ) (m : List ProcessData) : ℤ :=
  if fa = -1 then (m.head?.map ProcessData.arrival).getD (-1) else fa

/-- Processes come in, and the arrival of the first one is noted. -/
theorem Noted.admit {m : List ProcessData} (h : s.Noted l)
    (hr : s'.readyQueue = s.readyQueue ++ m.map createPCB) (hm : ∀ pd ∈ m, Dated pd.job)
    (hf : s'.perf.firstArrival = noting s.perf.firstArrival m)
    (hc : s.currProcess = none → s'.currProcess = none)
    (hn : s'.perf.numProcs = s.perf.numProcs) : s'.Noted (l ++ s.entered s') := by
  have hent : s.entered s' = m.map ProcessData.arrival := by
    rw [entered, hr, List.drop_left, List.map_map]
    rfl
  rw [hent]
  refine ⟨?_, fun t ht => ?_, fun hl => ?_⟩
  · rw [hf, noting]
    by_cases hfa : s.perf.firstArrival = -1
    · rw [if_pos hfa, h.eq_nil_iff.mp hfa, List.nil_append, List.head?_map]
    · obtain ⟨t, l', rfl⟩ := List.exists_cons_of_ne_nil fun hl => hfa (h.eq_nil_iff.mpr hl)
      rw [if_neg hfa]
      exact h.first
  · rcases List.mem_append.mp ht with ht | ht
    · exact h.dated t ht
    · obtain ⟨pd, hpd, rfl⟩ := List.mem_map.mp ht
      exact hm pd hpd
  · obtain ⟨rfl, hm⟩ := List.append_eq_nil_iff.mp hl
    obtain rfl := List.map_eq_nil_iff.mp hm
    obtain ⟨hq, hcurr, hn'⟩ := h.empty rfl
    exact ⟨by rw [hr, hq]; rfl, hc hcurr, hn.trans_le hn'⟩

/-! ### The places -/

theorem firstArrivalOf_eq (perf : PerfVars) (pd : ProcessData) :
    (RRState.firstArrivalOf perf pd).firstArrival = noting perf.firstArrival [pd] ∧
      (RRState.firstArrivalOf perf pd).numProcs = perf.numProcs := by
  rw [RRState.firstArrivalOf, noting]
  split_ifs <;> exact ⟨rfl, rfl⟩

/-- One loop of `main`, and of `stall_sig`, notes the first process only. -/
theorem noting_cons {fa : ℤ} {pd : ProcessData} {m : List ProcessData} (h : Dated pd.job) :
    noting (noting fa [pd]) m = noting fa (pd :: m) := by
  rw [noting, noting, noting]
  by_cases hfa : fa = -1
  · rw [if_pos hfa, if_pos hfa]
    exact if_neg h
  · rw [if_neg hfa, if_neg hfa, if_neg hfa]

/-- What the loop of `stall_sig` notes. -/
theorem perf_drainAll_note : ∀ (q : List ProcessData) (s : Sub), (∀ pd ∈ news q, Dated pd.job) →
    (drainAll (fun s pd => (s.noteArrival pd).receive pd) q s).perf.firstArrival =
        noting s.perf.firstArrival (news q) ∧
      (drainAll (fun s pd => (s.noteArrival pd).receive pd) q s).perf.numProcs =
        s.perf.numProcs := by
  intro q
  induction q with
  | nil =>
    intro s _
    refine ⟨?_, rfl⟩
    rw [news, noting]
    split_ifs with hfa
    · exact hfa
    · rfl
  | cons pd q ih =>
    intro s hq
    rw [drainAll]
    rw [news] at hq ⊢
    by_cases h5 : pd.mtype = 5
    · rw [if_pos h5, if_pos h5, noting]
      refine ⟨?_, rfl⟩
      split_ifs with hfa
      · exact hfa
      · rfl
    · rw [if_neg h5] at hq ⊢
      rw [if_neg h5]
      by_cases h1 : pd.mtype = 1
      · rw [if_pos h1] at hq ⊢
        rw [if_pos h1]
        obtain ⟨hf, hn⟩ := ih ((s.noteArrival pd).receive pd)
          fun d hd => hq d (List.mem_cons_of_mem _ hd)
        obtain ⟨hf₁, hn₁⟩ := firstArrivalOf_eq s.perf pd
        refine ⟨?_, hn.trans hn₁⟩
        rw [hf, ← noting_cons (hq pd List.mem_cons_self), ← hf₁]
        rfl
      · rw [if_neg h1] at hq ⊢
        rw [if_neg h1]
        exact ih s hq

/-- The loop of `steal_handler` notes nothing. -/
theorem perf_drainAll (q : List ProcessData) (s : Sub) : (drainAll receive q s).perf = s.perf := by
  induction q generalizing s with
  | nil => rfl
  | cons pd q ih =>
    rw [drainAll]
    split_ifs
    · rfl
    · exact ih _
    · exact ih _

theorem perf_stealHandler (s : Sub) (clk : ℤ) : (s.stealHandler clk).1.perf = s.perf := by
  rw [stealHandler, stealRear]
  split <;> exact perf_drainAll s.msgq s

theorem perf_stallSig (s : Sub) (clk : ℤ) (h : ∀ pd ∈ news s.msgq, Dated pd.job) :
    (s.stallSig clk).perf.firstArrival = noting s.perf.firstArrival (news s.msgq) ∧
      (s.stallSig clk).perf.numProcs = s.perf.numProcs := by
  have hc : (s.stallCurrent clk).perf = s.perf ∧ (s.stallCurrent clk).msgq = s.msgq := by
    rw [stallCurrent]
    split
    · exact ⟨rfl, rfl⟩
    · dsimp only
      split_ifs <;> exact ⟨rfl, rfl⟩
  obtain ⟨hp, hq⟩ := hc
  have hd := perf_drainAll_note (s.stallCurrent clk).msgq
    { s.stallCurrent clk with stalled := true, sigusr2 := false } (hq ▸ h)
  refine ⟨hd.1.trans ?_, hd.2.trans (congrArg PerfVars.numProcs hp)⟩
  rw [hq]
  exact congrArg (fun p : PerfVars => noting p.firstArrival (news s.msgq)) hp

theorem perf_finishLogic {s' : Sub} (h : s.finishLogic clk = .ok s') :
    s'.perf.firstArrival = s.perf.firstArrival ∧ s'.readyQueue = s.readyQueue ∧
      s'.currProcess = none ∧ s.currProcess ≠ none := by
  rw [finishLogic] at h
  cases hcurr : s.currProcess with
  | none =>
    rw [hcurr] at h
    cases h
  | some x =>
    rw [hcurr] at h
    obtain ⟨u, -, h⟩ := Fallible.bind_eq_ok.mp h
    obtain rfl := Except.ok.inj h
    exact ⟨rfl, rfl, rfl, Option.some_ne_none x⟩

/-- **What the moves of a sub-scheduler note.** -/
theorem Noted.moves (h : s.Noted l) (hcar : s.Carries Dated) (hs : s.Moves clk rem s') :
    s'.Noted (l ++ s.entered s') := by
  cases hs with
  | @put b pd hpc =>
    obtain ⟨hf, hn⟩ := firstArrivalOf_eq s.perf pd
    refine h.admit (m := [pd]) rfl (fun d hd => ?_) hf id hn
    rw [List.mem_singleton.mp hd]
    exact hcar.fetched b pd hpc
  | @dequeue x q hpc hq =>
    refine h.quiet ?_ rfl fun hnil => nomatch hq.symm.trans hnil
    rw [hq]
    exact Nat.le_succ _
  | finish hpc hfin hs =>
    obtain ⟨hf, hr, -, hc⟩ := perf_finishLogic hs
    exact h.quiet (le_of_eq (congrArg List.length hr)) hf fun _ hcurr => absurd hcurr hc
  | resume hpc =>
    obtain ⟨st, y, ln, ch, hs, hy⟩ := s.endStall_eq clk
    rw [hs]
    refine h.quiet le_rfl rfl fun _ hcurr => ⟨?_, le_rfl⟩
    rw [hcurr] at hy
    exact Option.map_eq_none_iff.mp hy
  | run hpc hs =>
    obtain ⟨x, y, ln, ch, hcurr, -, rfl⟩ := runProcess_eq_ok hs
    exact h.quiet le_rfl rfl fun _ hnone => nomatch hcurr.symm.trans hnone
  | permit hpc =>
    obtain ⟨n, hs⟩ := s.permit_eq
    rw [hs]
    exact h.quiet le_rfl rfl fun _ hcurr => ⟨hcurr, le_rfl⟩
  | _ => exact h.quiet le_rfl rfl fun _ hcurr => ⟨hcurr, le_rfl⟩

/-- `stall_sig` notes the first process it receives. -/
theorem Noted.stallSig (h : s.Noted l) (hcar : s.Carries Dated) (clk : ℤ) :
    (s.stallSig clk).Noted (l ++ s.entered (s.stallSig clk)) := by
  have hnews : ∀ pd ∈ news s.msgq, Dated pd.job := fun pd hpd =>
    hcar.msgq pd (mem_news hpd).1 (mem_news hpd).2
  obtain ⟨hf, hn⟩ := s.perf_stallSig clk hnews
  obtain ⟨y, v, r, ln, ch, hs, hy⟩ := s.stallSig_eq clk
  refine h.admit (m := news s.msgq) (by rw [hs]; rfl) hnews hf (fun hcurr => ?_) hn
  rw [hcurr] at hy
  rw [hs]
  exact Option.map_eq_none_iff.mp hy

/-- What is left by `steal_handler`, which leaves the running process alone. -/
theorem stealHandler_left (s : Sub) (clk : ℤ) :
    (s.stealHandler clk).1.readyQueue = s.readyToSteal.dropLast ∧
      (s.stealHandler clk).1.currProcess = s.currProcess := by
  rcases s.stealHandler_cases clk with ⟨hnil, v, r, hs⟩ | ⟨x, q, hq, v, r, hs⟩
  · rw [hs, hnil]
    exact ⟨rfl, rfl⟩
  · rw [hs, hq, List.dropLast_concat]
    exact ⟨rfl, rfl⟩

/-- Where it keeps processes that it has taken out of the message queue. -/
theorem stealHandler_keeps (clk : ℤ) (h : 1 < (news s.msgq).length) :
    (s.stealHandler clk).1.readyQueue =
      s.readyQueue ++ (news s.msgq).dropLast.map createPCB := by
  have hne : (news s.msgq).map createPCB ≠ [] := fun hnil => by
    rw [List.map_eq_nil_iff.mp hnil] at h
    exact absurd h (by decide)
  rw [(s.stealHandler_left clk).1, readyToSteal, List.dropLast_append_of_ne_nil hne,
    List.map_dropLast]

/-- **`steal_handler` notes nothing**, and that is enough where something has been noted or
nothing stays. -/
theorem Noted.stealHandler (h : s.Noted l) (hcar : s.Carries Dated) (clk : ℤ)
    (hcond : s.perf.firstArrival = -1 → (news s.msgq).length ≤ 1) :
    (s.stealHandler clk).1.Noted (l ++ s.entered (s.stealHandler clk).1) := by
  obtain ⟨hleft, hcurr⟩ := s.stealHandler_left clk
  have hperf := s.perf_stealHandler clk
  rcases le_or_gt (news s.msgq).length 1 with hlen | hlen
  · refine h.quiet ?_ (by rw [hperf]) fun _ hnone => ⟨hcurr.trans hnone, by rw [hperf]⟩
    rw [hleft, readyToSteal, List.length_dropLast, List.length_append, List.length_map]
    omega
  · have hfa : s.perf.firstArrival ≠ -1 := fun hfa => absurd (hcond hfa) (not_le.mpr hlen)
    refine h.admit (stealHandler_keeps clk hlen) (fun pd hpd => ?_) ?_ hcurr.trans (by rw [hperf])
    · obtain ⟨hmem, h1⟩ := mem_news (List.mem_of_mem_dropLast hpd)
      exact hcar.msgq pd hmem h1
    · rw [hperf, noting, if_neg hfa]

/-- Otherwise a process has stayed, and no arrival has been noted. -/
theorem Noted.of_stealHandler (h : s.Noted l) (hcar : s.Carries Dated) (clk : ℤ)
    (h' : ∀ t ∈ (l ++ s.entered (s.stealHandler clk).1).head?,
      (s.stealHandler clk).1.perf.firstArrival = t) (hfa : s.perf.firstArrival = -1) :
    (news s.msgq).length ≤ 1 := by
  by_contra hlen
  rw [h.eq_nil_iff.mp hfa, List.nil_append, entered, stealHandler_keeps clk (not_le.mp hlen),
    List.drop_left, s.perf_stealHandler, hfa] at h'
  have hdrop : (news s.msgq).dropLast.length = (news s.msgq).length - 1 := List.length_dropLast
  obtain ⟨pd, m, hm⟩ := List.exists_cons_of_length_pos
    (show 0 < (news s.msgq).dropLast.length by omega)
  rw [hm] at h'
  obtain ⟨hmem, h1⟩ := mem_news (List.mem_of_mem_dropLast (hm ▸ List.mem_cons_self))
  exact hcar.msgq pd hmem h1 (h' _ rfl).symm

end Sub

/-! ### Runs -/

/-- A state and, for each sub-scheduler, the arrivals of the processes that have come into its
ready queue and stayed, in their order. -/
structure Arrivals where
  world : World
  stayed : Cpu → List ℤ

namespace Arrivals

open Dual.World TransitionSystem

variable {a : Arrivals} {w : World} {c : Cpu} {e : Event}

/-- A step and its trace in the history. -/
def record (a : Arrivals) (w : World) : Arrivals where
  world := w
  stayed c := a.stayed c ++ (a.world.sub c).entered (w.sub c)

/-- The runs all of whose steps meet a condition, on processes that arrive at a tick. -/
def systemIf (P : Params) (C : World → Event → Prop) : TransitionSystem Arrivals where
  init a := (∃ l, CpuScheduler.World.Workload l ∧ (∀ pd ∈ l, pd.arrival ≠ -1) ∧
    a.world = World.start l) ∧ a.stayed = fun _ => []
  step a a' := ∃ e w, World.next P a.world e = some w ∧ C a.world e ∧ a' = a.record w

/-- **The first arrival is recorded**: once a process has stayed it is the arrival of the first
one that has, and once a process has finished it is an arrival. -/
def Recorded (a : Arrivals) : Prop := ∀ c,
  (∀ t ∈ (a.stayed c).head?, (a.world.sub c).perf.firstArrival = t) ∧
  (0 < (a.world.sub c).perf.numProcs → (a.world.sub c).perf.firstArrival ≠ -1)

/-- **The handler of the command** keeps none of the processes it takes out of the message
queue, while no arrival has been noted. -/
def Noting (w : World) : Event → Prop
  | .steal c => (w.sub c).perf.firstArrival = -1 → (news (w.sub c).msgq).length ≤ 1
  | _ => True

/-- The invariant. -/
def Sound (a : Arrivals) : Prop :=
  a.world.Carried Dated ∧ ∀ c, (a.world.sub c).Noted (a.stayed c)

theorem Sound.recorded (h : a.Sound) : a.Recorded := by
  intro c
  have hc := h.2 c
  refine ⟨fun t ht => ?_, fun hn hfa => ?_⟩
  · rw [hc.first, Option.mem_def.mp ht]
    rfl
  · exact absurd hn (hc.empty (hc.eq_nil_iff.mp hfa)).2.2.not_gt

theorem Sound.step (h : a.Sound) (hst : Steps P a.world e w) (hcond : Noting a.world e) :
    (a.record w).Sound := by
  refine ⟨h.1.step (show (0 : ℤ) ≠ -1 by decide) hst, fun c => ?_⟩
  have hc := h.2 c
  have hcar := h.1.subs c
  change (w.sub c).Noted (a.stayed c ++ (a.world.sub c).entered (w.sub c))
  have hh := hst.happens c
  generalize w.sub c = s at hh ⊢
  cases hh with
  | reached hs =>
    obtain ⟨q, u, v, rfl⟩ := hs
    exact hc.quiet le_rfl rfl fun _ hcurr => ⟨hcurr, le_rfl⟩
  | own hs => exact hc.moves hcar hs
  | steal hsig hpc => exact hc.stealHandler hcar _ hcond
  | stall hsig hpc => exact hc.stallSig hcar _
  | child hs =>
    obtain ⟨fin, sem, rt, ch, rfl⟩ := Sub.childStep_eq_some hs
    exact hc.quiet le_rfl rfl fun _ hcurr => ⟨hcurr, le_rfl⟩
  | _ => exact hc.quiet le_rfl rfl fun _ hcurr => ⟨hcurr, le_rfl⟩

/-- A step that does not meet the condition. -/
theorem Sound.noting (h : a.Sound) (hst : Steps P a.world e w) (hrec : (a.record w).Recorded) :
    Noting a.world e := by
  cases hst with
  | @steal c hsig hpc =>
    have hc := (hrec c).1
    change ∀ t ∈ (a.stayed c ++ (a.world.sub c).entered ((World.setSub _ c _).sub c)).head?,
      ((World.setSub _ c _).sub c).perf.firstArrival = t at hc
    rw [setSub_sub_self] at hc
    exact (h.2 c).of_stealHandler (h.1.subs c) _ hc
  | _ => exact trivial

theorem reachable_sound (h : (systemIf P Noting).Reachable a) : a.Sound := by
  refine h.invariant ?_ ?_
  · rintro a ⟨⟨l, -, hl, hw⟩, hs⟩
    refine ⟨hw ▸ start_carried hl, fun c => ?_⟩
    rw [hw, hs]
    exact ⟨rfl, List.forall_mem_nil _, fun _ => ⟨rfl, rfl, le_rfl⟩⟩
  · rintro a _ ha ⟨e, w, hnext, hcond, rfl⟩
    exact ha.step (next_cases hnext) hcond

/-- Three processes that arrive at tick 1. -/
def three : List ProcessData :=
  [soleProcess 0, { soleProcess 0 with id := 8 }, { soleProcess 0 with id := 9 }]

theorem workload_three : CpuScheduler.World.Workload three ∧ ∀ pd ∈ three, pd.arrival ≠ -1 :=
  ⟨⟨by decide, by decide, by decide⟩, by decide⟩

def start (l : List ProcessData) : Arrivals where
  world := World.start l
  stayed _ := []

instance (w : World) (e : Event) : Decidable (Noting w e) :=
  match e with
  | .steal _ => inferInstanceAs (Decidable (_ → _))
  | .tick | .main | .sub _ | .stall _ | .child _ | .observe | .send | .sync | .last =>
    inferInstanceAs (Decidable True)

def play (P : Params) (a : Arrivals) (e : Event) : Option Arrivals :=
  (World.next P a.world e).map a.record

theorem play_step (a : Arrivals) (e : Event) (b : Arrivals) (h : a.play P e = some b) :
    (systemIf P fun _ _ => True).step a b := by
  obtain ⟨w, hw, rfl⟩ := Option.map_eq_some_iff.mp h
  exact ⟨e, w, hw, trivial, rfl⟩

/-- The main scheduler routes the three processes at tick 1, two of them to the first
sub-scheduler, finds that the loads differ, and sends the command. -/
def routedRun : List Event :=
  [.tick, .observe, .send, .send, .send, .sync] ++ List.replicate 15 .main

end Arrivals

end Dual

end CpuScheduler
