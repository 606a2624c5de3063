import CpuScheduler.Dual.Moves

/-!
# Dispatching a process while one is stolen

A sub-scheduler tests that a process is ready and takes the first one, in two statements
(`CpuScheduler.Dual.SubPc.algo`, `CpuScheduler.Dual.SubPc.dequeue`). The handler of the main
scheduler's command may come in between, and it takes the last one. As long as two
processes are ready whenever it does (`CpuScheduler.Dual.World.Roomy`), there is one left to
be dispatched; otherwise `dequeue` ends the program. A process is never taken twice either way:
the history of the queue tells where each has gone (`CpuScheduler.Dual.Sub.Books`).
-/

namespace CpuScheduler

namespace Dual

namespace Sub

variable {clk rem : ℤ} {s s' : Sub}

/-- **Where the processes have gone** that a sub-scheduler has received: each is ready, or has
been dispatched, or has been given back, and only one of these. -/
def Books (s : Sub) : Prop :=
  s.arrived.Perm (s.readyQueue.map PCB.id ++ s.dispatched ++ s.stolen)

/-- A process may be taken out at this place only while there is one. -/
def Guarded (s : Sub) : Prop := s.pc = .dequeue → s.readyQueue ≠ []

/-- Nothing happens to the ready queue. -/
def SameQueue (s s' : Sub) : Prop :=
  s'.readyQueue = s.readyQueue ∧ s'.arrived = s.arrived ∧ s'.dispatched = s.dispatched ∧
    s'.stolen = s.stolen

theorem Books.of_same (hs : s.Books) (h : s.SameQueue s') : s'.Books := by
  obtain ⟨hr, ha, hd, ht⟩ := h
  rw [Books, hr, ha, hd, ht]
  exact hs

/-- **The ready queue of a sub-scheduler**: in its own steps it receives a process, or takes
the first one, or leaves the queue alone; and it does not come to `dequeue` with an empty
queue. -/
theorem Moves.queue (h : s.Moves clk rem s') :
    (∃ b pd, s' = { (s.noteArrival pd).receive pd with pc := .drain b }) ∨
    (∃ x q, s.readyQueue = x :: q ∧ s' = { s with
      currProcess := some x
      readyQueue := q
      dispatched := s.dispatched ++ [x.id]
      pc := .count }) ∨
    (s.SameQueue s' ∧ s'.Guarded) := by
  have hsame : ∀ {s' : Sub}, s.SameQueue s' → s'.pc ≠ .dequeue → s.SameQueue s' ∧ s'.Guarded :=
    fun hq hpc => ⟨hq, fun h => absurd h hpc⟩
  cases h with
  | @put b pd hpc => exact Or.inl ⟨b, pd, rfl⟩
  | dequeue hpc hq => exact Or.inr (Or.inl ⟨_, _, hq, rfl⟩)
  | choose hpc hcurr hne => exact Or.inr (Or.inr ⟨⟨rfl, rfl, rfl, rfl⟩, fun _ => hne⟩)
  | finish hpc hfin hs =>
    obtain ⟨x, l, p, -, -, rfl⟩ := finishLogic_eq_ok hs
    exact Or.inr (Or.inr (hsame ⟨rfl, rfl, rfl, rfl⟩ nofun))
  | run hpc hs =>
    obtain ⟨x, y, l, ch, -, -, rfl⟩ := runProcess_eq_ok hs
    exact Or.inr (Or.inr (hsame ⟨rfl, rfl, rfl, rfl⟩ nofun))
  | resume hpc =>
    obtain ⟨st, y, l, ch, hs, -⟩ := s.endStall_eq clk
    rw [hs]
    exact Or.inr (Or.inr (hsame ⟨rfl, rfl, rfl, rfl⟩ nofun))
  | permit hpc =>
    obtain ⟨n, hs⟩ := s.permit_eq
    rw [hs]
    exact Or.inr (Or.inr (hsame ⟨rfl, rfl, rfl, rfl⟩ nofun))
  | @drained b hpc hq | @last b pd q hpc hq h5 =>
    cases b <;> exact Or.inr (Or.inr (hsame ⟨rfl, rfl, rfl, rfl⟩ nofun))
  | drop hpc hq h1 h5 =>
    exact Or.inr (Or.inr (hsame ⟨rfl, rfl, rfl, rfl⟩ fun h => nomatch hpc.symm.trans h))
  | _ hpc => exact Or.inr (Or.inr (hsame ⟨rfl, rfl, rfl, rfl⟩ nofun))

/-! ### The books -/

/-- The books of a sub-scheduler that has received processes. -/
theorem Books.receiveAll (hs : s.Books) (l : List ProcessData)
    (hr : s'.readyQueue = s.readyQueue ++ l.map createPCB)
    (ha : s'.arrived = s.arrived ++ l.map ProcessData.id) (hd : s'.dispatched = s.dispatched)
    (ht : s'.stolen = s.stolen) : s'.Books := by
  have hids : (l.map createPCB).map PCB.id = l.map ProcessData.id := by
    rw [List.map_map]
    rfl
  rw [Books, hr, ha, hd, ht, List.map_append, hids]
  refine List.perm_iff_count.mpr fun i => ?_
  have hi := List.perm_iff_count.mp hs i
  simp only [List.count_append] at hi ⊢
  omega

/-- The first process is dispatched. -/
theorem Books.dispatch (hs : s.Books) {x : PCB} {q : List PCB} (hq : s.readyQueue = x :: q)
    (hr : s'.readyQueue = q) (ha : s'.arrived = s.arrived)
    (hd : s'.dispatched = s.dispatched ++ [x.id]) (ht : s'.stolen = s.stolen) : s'.Books := by
  rw [Books, hr, ha, hd, ht]
  refine List.perm_iff_count.mpr fun i => ?_
  have hi := List.perm_iff_count.mp hs i
  rw [hq] at hi
  simp only [List.map_cons, List.count_append, List.count_cons, List.count_nil] at hi ⊢
  omega

/-- The last process is given back. -/
theorem Books.steal (hs : s.Books) {x : PCB} {q : List PCB} (hq : s.readyQueue = q ++ [x])
    (hr : s'.readyQueue = q) (ha : s'.arrived = s.arrived) (hd : s'.dispatched = s.dispatched)
    (ht : s'.stolen = s.stolen ++ [x.id]) : s'.Books := by
  rw [Books, hr, ha, hd, ht]
  refine List.perm_iff_count.mpr fun i => ?_
  have hi := List.perm_iff_count.mp hs i
  rw [hq] at hi
  simp only [List.map_append, List.map_cons, List.map_nil, List.count_append] at hi ⊢
  omega

theorem Books.moves (hs : s.Books) (h : s.Moves clk rem s') : s'.Books := by
  rcases h.queue with ⟨b, pd, rfl⟩ | ⟨x, q, hq, rfl⟩ | ⟨hsame, -⟩
  · exact hs.receiveAll [pd] rfl rfl rfl rfl
  · exact hs.dispatch hq rfl rfl rfl rfl
  · exact hs.of_same hsame

theorem Guarded.moves (h : s.Moves clk rem s') : s'.Guarded := by
  rcases h.queue with ⟨b, pd, rfl⟩ | ⟨x, q, hq, rfl⟩ | ⟨-, hguard⟩
  · exact fun h => nomatch h
  · exact fun h => nomatch h
  · exact hguard

/-- The command to give a process back keeps the books. -/
theorem Books.stealHandler (hs : s.Books) (clk : ℤ) : (s.stealHandler clk).1.Books := by
  have hall : ({ s with
      readyQueue := s.readyToSteal
      arrived := s.arrived ++ (news s.msgq).map ProcessData.id } : Sub).Books :=
    hs.receiveAll (news s.msgq) rfl rfl rfl rfl
  rcases s.stealHandler_cases clk with ⟨hnil, v, r, h⟩ | ⟨x, q, hq, v, r, h⟩
  · rw [h]
    exact hall.of_same ⟨hnil.symm, rfl, rfl, rfl⟩
  · rw [h]
    exact hall.steal hq rfl rfl rfl rfl

/-- **The command at `dequeue`**: it leaves a process exactly when there are two. -/
theorem guarded_stealHandler (hpc : s.pc = .dequeue) (clk : ℤ) :
    (s.stealHandler clk).1.Guarded ↔ 2 ≤ s.readyToSteal.length := by
  rcases s.stealHandler_cases clk with ⟨hnil, v, r, h⟩ | ⟨x, q, hq, v, r, h⟩
  · rw [h, hnil]
    exact ⟨fun hg => absurd rfl (hg hpc), fun h => absurd h (by decide)⟩
  · rw [h, hq, List.length_append, List.length_singleton]
    constructor
    · intro hg
      have hne : q ≠ [] := hg hpc
      have := List.length_pos_iff.mpr hne
      omega
    · intro hlen _
      have hpos : 0 < q.length := by omega
      exact List.length_pos_iff.mp hpos

end Sub

namespace World

open Fallible TransitionSystem

variable {P : Params} {w w' : World} {c : Cpu} {e : Event} {s : Sub}

/-- **Two processes are ready** when the command to give one back comes in between the test and
`dequeue`. -/
def Roomy (w : World) : Event → Prop
  | .steal c => (w.sub c).pc = .dequeue → 2 ≤ (w.sub c).readyToSteal.length
  | _ => True

/-- **What dispatching needs**: `dequeue` has a process to take and does not end the program,
and no process is both dispatched and given back. -/
def Dispatching (w : World) : Prop :=
  ∀ c, (w.sub c).Guarded ∧ w.subNext c ≠ .error .underflow ∧ (w.sub c).Books

theorem Happens.books (h : Happens w c e s) (hw : (w.sub c).Books) : s.Books := by
  cases h with
  | reached hs =>
    obtain ⟨q, u, v, rfl⟩ := hs
    exact hw.of_same ⟨rfl, rfl, rfl, rfl⟩
  | own hs => exact hw.moves hs
  | steal hsig hpc => exact hw.stealHandler _
  | stall hsig hpc =>
    obtain ⟨y, v, r, l, ch, hs, -⟩ := (w.sub c).stallSig_eq w.clock
    rw [hs]
    exact hw.receiveAll (news (w.sub c).msgq) rfl rfl rfl rfl
  | child hs =>
    obtain ⟨fin, sem, rt, ch, rfl⟩ := Sub.childStep_eq_some hs
    exact hw.of_same ⟨rfl, rfl, rfl, rfl⟩
  | _ => exact hw.of_same ⟨rfl, rfl, rfl, rfl⟩

/-- Everything but the command to give a process back leaves one to be dispatched. -/
theorem Happens.guarded (h : Happens w c e s) (he : e ≠ .steal c) (hw : (w.sub c).Guarded) :
    s.Guarded := by
  cases h with
  | reached hs =>
    obtain ⟨q, u, v, rfl⟩ := hs
    exact hw
  | own hs => exact Sub.Guarded.moves hs
  | pass hpc h0 hgate => exact fun h => nomatch h
  | @write k n t hpc => cases k <;> exact fun h => nomatch h
  | ack hpc => exact fun h => nomatch h
  | steal hsig hpc => exact absurd rfl he
  | stall hsig hpc =>
    obtain ⟨y, v, r, l, ch, hs, -⟩ := (w.sub c).stallSig_eq w.clock
    rw [hs]
    exact fun h => List.append_ne_nil_of_left_ne_nil (hw h) _
  | child hs =>
    obtain ⟨fin, sem, rt, ch, rfl⟩ := Sub.childStep_eq_some hs
    exact hw

/-- **The one place where the program can end so**: `dequeue` with an empty queue. -/
theorem subNext_ne_underflow (hw : (w.sub c).Guarded) : w.subNext c ≠ .error .underflow := by
  intro h
  rw [subNext] at h
  cases hpc : (w.sub c).pc <;> simp only [hpc, reduceCtorEq] at h
  case finish =>
    split_ifs at h
    rcases bind_eq_error.mp h with h | ⟨s, -, h⟩
    · rw [Sub.finishLogic] at h
      split at h
      · cases h
      · rcases bind_eq_error.mp h with h | ⟨u, -, h⟩
        · rw [Sub.waitpid] at h
          split at h
          · cases h
          · split_ifs at h
            cases h
        · cases h
    · cases h
    · cases h
  case gate =>
    rw [passGate] at h
    dsimp only at h
    split_ifs at h
    cases h
  case dequeue =>
    rcases bind_eq_error.mp h with h | ⟨s, -, h⟩
    · rw [Sub.dispatch] at h
      rcases bind_eq_error.mp h with h | ⟨r, -, h⟩
      · cases hq : (w.sub c).readyQueue with
        | nil => exact hw hpc hq
        | cons x q =>
          rw [hq] at h
          cases h
      · cases h
    · cases h
  case run =>
    rcases bind_eq_error.mp h with h | ⟨s, -, h⟩
    · rw [Sub.runProcess] at h
      split at h
      · cases h
      · dsimp only at h
        split_ifs at h
    · cases h
  case exited => cases h

theorem dispatching_iff :
    w.Dispatching ↔ ∀ c, (w.sub c).Guarded ∧ (w.sub c).Books :=
  ⟨fun h c => ⟨(h c).1, (h c).2.2⟩, fun h c => ⟨(h c).1, subNext_ne_underflow (h c).1, (h c).2⟩⟩

/-- **A step keeps it exactly when it meets the condition.** -/
theorem Dispatching.step (hw : w.Dispatching) (h : Steps P w e w') :
    w'.Dispatching ↔ w.Roomy e := by
  rw [dispatching_iff] at hw ⊢
  have hall := h.happens
  constructor
  · intro hw'
    cases h with
    | @steal c hsig hpc =>
      intro hat
      have hg := (hw' c).1
      change ((w.setSub c _).sub c).Guarded at hg
      rw [setSub_sub_self] at hg
      exact (Sub.guarded_stealHandler hat _).mp hg
    | _ => exact trivial
  · intro hroom c
    refine ⟨?_, (hall c).books (hw c).2⟩
    by_cases he : e = .steal c
    · subst he
      cases h with
      | steal hsig hpc =>
        change ((w.setSub c _).sub c).Guarded
        rw [setSub_sub_self]
        by_cases hat : (w.sub c).pc = .dequeue
        · exact (Sub.guarded_stealHandler hat _).mpr (hroom hat)
        · have hplace := (Happens.steal hsig hpc : Happens w c _ _).place fun h => nomatch h
          exact fun h => absurd (hplace.1.symm.trans h) hat
    · exact (hall c).guarded he (hw c).1

theorem start_dispatching (l : List ProcessData) : (start l).Dispatching := by
  rw [dispatching_iff]
  exact fun c => ⟨fun h => (nomatch h), List.Perm.refl _⟩

theorem reachable_dispatching (h : (systemIf P Roomy).Reachable w) : w.Dispatching := by
  refine h.invariant ?_ ?_
  · rintro _ ⟨l, -, rfl⟩
    exact start_dispatching l
  · rintro w w' hw ⟨e, h, hroom⟩
    exact (hw.step (next_cases h)).mpr hroom

/-- **Dispatching and stealing.** As long as two processes are ready whenever a command comes in
between the test and `dequeue`, a process is dispatched and the program goes on; and the first
command that does not find two of them there leaves `dequeue` with nothing. -/
theorem roomy_dispatching (h : (systemIf P Roomy).Reachable w) : w.Dispatching ∧
    ∀ e w', w.next P e = some w' → (w'.Dispatching ↔ w.Roomy e) :=
  ⟨reachable_dispatching h, fun _ _ hnext => (reachable_dispatching h).step (next_cases hnext)⟩

/-! ### Explicit runs -/

instance (w : World) (e : Event) : Decidable (w.Roomy e) :=
  match e with
  | .steal _ => inferInstanceAs (Decidable (_ → _))
  | .tick | .main | .sub _ | .stall _ | .child _ | .observe | .send | .sync | .last =>
    inferInstanceAs (Decidable True)

/-- The next state, if a command that comes in between finds two processes. -/
def nextRoomy (P : Params) (w : World) (e : Event) : Option World :=
  if w.Roomy e then w.next P e else none

theorem nextRoomy_step (w : World) (e : Event) (w' : World) (h : w.nextRoomy P e = some w') :
    (systemIf P Roomy).step w w' := by
  rw [nextRoomy] at h
  split_ifs at h with hroom
  exact ⟨e, h, hroom⟩

/-- The main scheduler routes a process at tick 1, and the first sub-scheduler has tested that
it may be dispatched. At tick 2 the main scheduler finds that the loads differ, and sends the
command. -/
def commandRun : List Event :=
  List.flatten [[.tick, .observe, .send, .sync], List.replicate 10 .main,
    List.replicate 12 (.sub .one), [.tick, .last], List.replicate 8 .main]

/-- In the run of `commandRun` the process is dispatched before the command is carried out. -/
theorem roomy_dispatching_command : ∃ w,
    playAll (nextRoomy { N := 2, M := 0 }) (start [soleProcess 0])
      (commandRun ++ [.sub .one, .steal .one]) = some w ∧ (w.sub .one).dispatched = [7] ∧
    w.Dispatching := by
  have hrun : (playAll (nextRoomy { N := 2, M := 0 }) (start [soleProcess 0])
      (commandRun ++ [.sub .one, .steal .one])).map (fun w => (w.sub .one).dispatched) =
      some [7] := by
    decide +kernel
  obtain ⟨w, hw, hd⟩ := Option.map_eq_some_iff.mp hrun
  have hstart : (systemIf { N := 2, M := 0 } Roomy).Reachable (start [soleProcess 0]) :=
    .init ⟨_, CpuScheduler.World.workload_sole 0, rfl⟩
  exact ⟨w, hw, hd, (roomy_dispatching (hstart.playAll nextRoomy_step hw)).1⟩

/-- **The command takes the process away** that the test has found, and `dequeue` ends the
program. -/
theorem not_dispatching : ¬∀ w, (system { N := 2, M := 0 }).Reachable w → w.Dispatching := by
  intro hall
  have hrun : (playAll (next { N := 2, M := 0 }) (start [soleProcess 0])
      (commandRun ++ [.steal .one])).map
        (fun w => ((w.sub .one).pc, (w.sub .one).readyQueue.length)) = some (.dequeue, 0) := by
    decide +kernel
  obtain ⟨w, hw, h⟩ := Option.map_eq_some_iff.mp hrun
  have hstart : (system { N := 2, M := 0 }).Reachable (start [soleProcess 0]) :=
    .init ⟨_, CpuScheduler.World.workload_sole 0, rfl⟩
  obtain ⟨hpc, hlen⟩ := Prod.mk.inj h
  exact (hall w (hstart.playAll next_step hw) .one).1 hpc (List.length_eq_zero_iff.mp hlen)

end World

end Dual

end CpuScheduler
