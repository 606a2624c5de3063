import CpuScheduler.RR.Turns

/-!
# The phases of the main loop

The cuts of the main loop (`CpuScheduler.Pc`) divide a turn into phases.
`CpuScheduler.RRState.Turn` lists what a phase can do, with everything that the
scheduling side sees of it, and `CpuScheduler.RRState.phase_outcome` says that a phase
does one of these things, keeps custody and the kept predicates of the memory, and
never takes anything out of an empty queue. Every invariant of the scheduler is proved
by cases on it.
-/

namespace CpuScheduler

/-- The PCB of a process that has finished. -/
def PCB.finish (x : PCB) (remaining t : ℤ) : PCB :=
  { x with finishTime := t, state := .F, lState := .finish, remainingTime := remaining }

namespace RRState

open Fallible Mem

variable {K : Mem → Prop} {room : Room}
  {adm : ProcessData → Prop} {P : Params} {clk : Clk} {s s' : RRState} {l c : List Ptr}
  {p : Ptr} {x : PCB} {m : Mem} {d : ProcessData}

/-! ### Processes that come and go -/

/-- **Admission** keeps custody: the new process is ready. -/
theorem Custody.receive (h : s.Custody l c) (hid : ∀ p x, s.toMem.Live p x → x.id ≠ d.id) :
    (s.receiveProcess d).Custody l c := by
  have hlive : ∀ {q y}, (s.toMem.create d).Live q y ↔
      s.toMem.Live q y ∨ (q = s.brk ∧ y = createPCB d) := live_create h.fresh h.wf
  have hold : ∀ {q}, q ∈ s.currentPCBs → (s.toMem.create d).heap q = s.heap q := by
    intro q hq
    have hne : q ≠ s.brk := by
      rintro rfl
      exact h.fresh.not_mem h.wf hq
    exact Function.update_of_ne hne ..
  have hnew : InState (s.toMem.create d) .W s.brk :=
    ⟨createPCB d, Function.update_self .., rfl⟩
  have hkeep : ∀ {st q}, q ∈ s.currentPCBs → InState s.toMem st q →
      InState (s.toMem.create d) st q := by
    rintro st q hq ⟨y, hy, hst⟩
    exact ⟨y, (hold hq).trans hy, hst⟩
  have henq : ∀ q : List Ptr, (↑(Queue.enqueue q s.brk) : Multiset Ptr) = s.brk ::ₘ ↑q :=
    fun q => by
      rw [Multiset.cons_coe]
      exact Multiset.coe_eq_coe.mpr (Queue.perm_enqueue _ _)
  refine ⟨?_, ⟨?_, fun {q} hq => ?_, fun {q} hq => ?_, fun {q r y z} hy hz he => ?_⟩,
    h.fresh.create d, fun q hq => ?_, fun q hq => ?_, fun q hq => ?_, ?_, ?_, fun q hq => ?_⟩
  · show (↑(Queue.enqueue s.currentPCBs s.brk) : Multiset Ptr) =
      ↑l + ↑c + ↑(Queue.enqueue s.readyQueue s.brk) + ↑s.blockQueue
    rw [henq, henq, h.places, Multiset.add_cons, Multiset.cons_add]
  · exact (Queue.perm_enqueue _ _).nodup_iff.mpr
      (List.nodup_cons.mpr ⟨h.fresh.not_mem h.wf, h.wf.nodup⟩)
  · rcases Queue.mem_enqueue.mp hq with hq | rfl
    · obtain ⟨y, hy⟩ := h.wf.alloc hq
      exact ⟨y, (hold hq).trans hy⟩
    · exact ⟨_, Function.update_self ..⟩
  · exact Queue.mem_enqueue.mpr (Or.inl (h.wf.cur hq))
  · rcases hlive.mp hy with hy | ⟨rfl, rfl⟩ <;> rcases hlive.mp hz with hz | ⟨rfl, rfl⟩
    · exact h.wf.ids hy hz he
    · exact absurd he (hid q y hy)
    · exact absurd he.symm (hid r z hz)
    · rfl
  · exact hkeep (h.mem_iff.mpr (Or.inr (Or.inl hq))) (h.running q hq)
  · rcases Queue.mem_enqueue.mp hq with hq | rfl
    · exact hkeep (h.mem_iff.mpr (Or.inr (Or.inr (Or.inl hq)))) (h.ready q hq)
    · exact hnew
  · exact hkeep (h.mem_iff.mpr (Or.inr (Or.inr (Or.inr hq)))) (h.blocked q hq)
  · show (↑(s.received ++ [s.brk]) : Multiset Ptr) =
      ↑s.finished + ↑(Queue.enqueue s.currentPCBs s.brk)
    rw [henq, Multiset.add_cons, ← h.history, Multiset.cons_coe]
    exact Multiset.coe_eq_coe.mpr (List.perm_append_singleton ..)
  · refine (List.perm_append_singleton ..).nodup_iff.mpr
      (List.nodup_cons.mpr ⟨fun hb => ?_, h.once⟩)
    exact lt_irrefl _ (h.old s.brk hb)
  · rcases List.mem_append.mp hq with hq | hq
    · exact Nat.lt_succ_of_lt (h.old q hq)
    · rw [List.mem_singleton.mp hq]
      exact Nat.lt_succ_self s.brk

/-- **Finishing** keeps custody: the running process is gone. -/
theorem Custody.finish (h : s.Custody [] [p]) (hr : Released s.toMem m p) :
    ({ s with toMem := m, finished := s.finished ++ [p] } : RRState).Custody [] [] := by
  have hmem : p ∈ s.currentPCBs := h.mem_iff.mpr (Or.inr (Or.inl List.mem_cons_self))
  have hsplit : (s.currentPCBs : Multiset Ptr) = p ::ₘ ↑(s.currentPCBs.erase p) := by
    rw [Multiset.cons_coe]
    exact Multiset.coe_eq_coe.mpr (List.perm_cons_erase hmem)
  have hrest : (↑(s.currentPCBs.erase p) : Multiset Ptr) = ↑s.readyQueue + ↑s.blockQueue := by
    have hp := h.places
    rw [hsplit, ← Multiset.cons_coe] at hp
    simpa only [Multiset.coe_nil, zero_add, Multiset.cons_add, Multiset.cons_inj_right] using hp
  obtain ⟨-, -, hpr, hpb⟩ := h.takeRunning.not_mem
  have hkeep : ∀ {st q}, q ≠ p → InState s.toMem st q → InState m st q := by
    rintro st q hq ⟨y, hy, hst⟩
    exact ⟨y, (hr.heap_of_ne hq).trans hy, hst⟩
  have hlive : ∀ {q y}, m.Live q y → s.toMem.Live q y := by
    rintro q y ⟨hq, hy⟩
    rw [hr.pcbs, h.wf.nodup.mem_erase_iff] at hq
    exact ⟨hq.2, (hr.heap_of_ne hq.1).symm.trans hy⟩
  refine ⟨?_, ⟨hr.pcbs ▸ h.wf.nodup.erase p, fun {q} hq => ?_, fun hq => ?_, fun hy hz he => ?_⟩,
    fun q hq => ?_, List.forall_mem_nil _, fun q hq => ?_, fun q hq => ?_, ?_, h.once, ?_⟩
  · show (m.currentPCBs : Multiset Ptr) = _
    rw [hr.pcbs, hrest, Multiset.coe_nil, zero_add, zero_add]
  · rw [hr.pcbs, h.wf.nodup.mem_erase_iff] at hq
    obtain ⟨y, hy⟩ := h.wf.alloc hq.2
    exact ⟨y, (hr.heap_of_ne hq.1).trans hy⟩
  · exact nomatch hr.cur.symm.trans hq
  · exact h.wf.ids (hlive hy) (hlive hz) he
  · by_cases hqp : q = p
    · rw [hqp, hr.heap, Function.update_self]
    · exact (hr.heap_of_ne hqp).trans (h.fresh q (hr.brk ▸ hq))
  · exact hkeep (fun he => hpr (he ▸ hq)) (h.ready q hq)
  · exact hkeep (fun he => hpb (he ▸ hq)) (h.blocked q hq)
  · show (s.received : Multiset Ptr) = ↑(s.finished ++ [p]) + ↑m.currentPCBs
    rw [hr.pcbs, h.history, hsplit, ← Multiset.coe_add, add_assoc, Multiset.coe_singleton,
      Multiset.singleton_add]
  · intro q hq
    show q < m.brk
    rw [hr.brk]
    exact h.old q hq

/-! ### The phases -/

/-- There is room for everything the phase asks the memory for. -/
structure Roomy (room : Room) (clk : Clk) (s : RRState) : Prop where
  demand : s.pc = .requests → s.currProcess.isSome → ∀ p page, Demands clk (s.fetched clk) p page →
    room .demand p page s.RAM
  launch : s.pc = .algo → 0 < s.now → ∀ s₁ r, Launches clk s s₁ r → room .pageTable r 0 s₁.RAM

/-- The processes that wait in the message queue are admissible and new. -/
def Incoming (adm : ProcessData → Prop) (s : RRState) : Prop :=
  ∀ d ∈ s.msgq, d.mtype = 1 → adm d ∧ ∀ p x, s.toMem.Live p x → x.id ≠ d.id

/-- **What a phase can do.** -/
inductive Turn (K : Mem → Prop) (P : Params) (clk : Clk) (s : RRState) : RRState → Prop
  /-- The loop is left. -/
  | exit (hpc : s.pc = .top) (hready : s.readyQueue = []) (hblock : s.blockQueue = [])
      (hrec : s.receivingProcesses = false) (hcur : s.currProcess = none) :
      Turn K P clk s { s with pc := .exited }
  /-- The clock has not moved. -/
  | spin (hpc : s.pc = .top) : Turn K P clk s s
  /-- A turn begins. -/
  | tick (hpc : s.pc = .top) (hnew : clk .now ≠ s.lastTick) :
      Turn K P clk s { s with now := clk .now, lastTick := clk .now, pc := .requests }
  /-- Nobody is running: no request is served. -/
  | idle (hpc : s.pc = .requests) (hcur : s.currProcess = none) :
      Turn K P clk s { s with pc := .blockEnd }
  | serve {s₁ : RRState} (hpc : s.pc = .requests) (hcur : s.currProcess.isSome)
      (hs : Serves clk (s.fetched clk) s₁) : Turn K P clk s { s₁ with pc := .blockEnd }
  | firstScan {s₁ : RRState} {k : Bool} (hpc : s.pc = .blockEnd) (hu : Unblocks s s₁) :
      Turn K P clk s { s₁ with checked := k, pc := .finish }
  /-- The signal of the running process is there. -/
  | finish (hpc : s.pc = .finish) (hcur : s.currProcess.isSome)
      (hsig : s.processFinishedSignal = true) :
      Turn K P clk s { s with processFinishedSignal := false, raisedBy := [], pc := .reap }
  | unfinished (hpc : s.pc = .finish)
      (h : s.currProcess = none ∨ s.processFinishedSignal = false) :
      Turn K P clk s { s with pc := .gate }
  /-- The running process is let go of. -/
  | reap {m : Mem} {p : Ptr} {x : PCB} (hpc : s.pc = .reap) (hcur : s.currProcess = some p)
      (hx : s.heap p = some x) (hwait : ∀ c, s.child p = some c → c.exited = true)
      (hr : Released s.toMem m p) : Turn K P clk s { s with
        toMem := m
        contextSwitchUntil := clk .finish + 1
        quantumsPassed := s.quantumsPassed + 1
        schedulerLog := s.schedulerLog ++ [lineOf (x.finish s.shmRT (clk .finish)) (clk .finish)]
        perf := perfOf s.perf (x.finish s.shmRT (clk .finish)) (clk .finish)
        child := Function.update s.child p none
        nextPreemtionTime := -1
        finished := s.finished ++ [p]
        pc := .gate }
  /-- A context switch is going on. -/
  | shut (hpc : s.pc = .gate) (hset : s.contextSwitchUntil ≠ -1)
      (hlt : s.now < s.contextSwitchUntil) : Turn K P clk s { s with pc := .last }
  | listen (hpc : s.pc = .gate) (hopen : s.contextSwitchUntil = -1 ∨ s.now ≥ s.contextSwitchUntil)
      (hrec : s.receivingProcesses = true) (hnew : s.now > s.lastReceivedSync) :
      Turn K P clk s { s with
        contextSwitchUntil := -1, receiveNow := clk .receive, pc := .receive }
  | skip (hpc : s.pc = .gate) (hopen : s.contextSwitchUntil = -1 ∨ s.now ≥ s.contextSwitchUntil)
      (h : ¬(s.receivingProcesses = true ∧ s.now > s.lastReceivedSync)) :
      Turn K P clk s { s with contextSwitchUntil := -1, pc := .algo }
  /-- A process is received. -/
  | arrive {d : ProcessData} {rest : List ProcessData} (hpc : s.pc = .receive)
      (hrcv : MsgQueue.rcv ProcessData.mtype (-5) s.msgq = some (d, rest)) (hd : d.mtype = 1) :
      Turn K P clk s (({ s with msgq := rest } : RRState).receiveProcess d)
  /-- The message for the tick, or for a later one. -/
  | sync {d : ProcessData} {rest : List ProcessData} (hpc : s.pc = .receive)
      (hrcv : MsgQueue.rcv ProcessData.mtype (-5) s.msgq = some (d, rest)) (hd : d.mtype = 2)
      (hnew : d.arrival ≥ s.receiveNow) :
      Turn K P clk s { s with msgq := rest, lastReceivedSync := d.arrival, pc := .algo }
  /-- The last message. -/
  | last {d : ProcessData} {rest : List ProcessData} (hpc : s.pc = .receive)
      (hrcv : MsgQueue.rcv ProcessData.mtype (-5) s.msgq = some (d, rest)) (hd : d.mtype = 5) :
      Turn K P clk s { s with msgq := rest, receivingProcesses := false, pc := .algo }
  /-- A message that is not acted on. -/
  | drop {d : ProcessData} {rest : List ProcessData} (hpc : s.pc = .receive)
      (hrcv : MsgQueue.rcv ProcessData.mtype (-5) s.msgq = some (d, rest)) (h1 : d.mtype ≠ 1)
      (h5 : d.mtype ≠ 5) (h2 : d.mtype = 2 → d.arrival < s.receiveNow) :
      Turn K P clk s { s with msgq := rest }
  | algo {s₁ : RRState} {m : Mem} {print : ℤ} {cl : List ℤ} (hpc : s.pc = .algo)
      (hd : (0 < s.now ∧ Decides K P clk s s₁) ∨ (s.now ≤ 0 ∧ s₁ = s)) (hm : SameCore s₁.toMem m)
      (hclear : K s₁.toMem ∧ (m = s₁.toMem ∨ s₁.clearRecent = .ok m)) :
      Turn K P clk s
        { ({ s₁ with toMem := m, lastPrint := print, clears := cl } : RRState).permit with
          pc := .last }
  | lastScan {s₁ : RRState} (hpc : s.pc = .last) (hu : Unblocks s s₁) :
      Turn K P clk s { s₁ with pc := .top }

/-- The result of one phase. -/
abbrev PhaseOutcome (K : Mem → Prop) (P : Params) (clk : Clk) (s : RRState)
    (r : Except Fault RRState) : Prop :=
  Outcome (fun s' => Held K s' [] s'.currProcess.toList ∧ Turn K P clk s s') NotUnderflow r

theorem reap_eq (clk : Clk) (hcur : s.currProcess = some p) (hx : s.heap p = some x)
    (hw : s.waitpid p = .ok ()) : s.reap clk =
      ((s.toMem.withPcb p (x.finish s.shmRT (clk .finish))).release p >>= fun m => .ok { s with
        toMem := m
        contextSwitchUntil := clk .finish + 1
        quantumsPassed := s.quantumsPassed + 1
        schedulerLog := s.schedulerLog ++ [lineOf (x.finish s.shmRT (clk .finish)) (clk .finish)]
        perf := perfOf s.perf (x.finish s.shmRT (clk .finish)) (clk .finish)
        child := Function.update s.child p none
        nextPreemtionTime := -1
        finished := s.finished ++ [p]
        pc := .gate }) := by
  have hpcb : (s.toMem.withPcb p (x.finish s.shmRT (clk .finish))).pcb p =
      .ok (x.finish s.shmRT (clk .finish)) := pcb_eq (withPcb_heap_self ..)
  simp only [RRState.reap, hcur, hw, ok_bind, update_eq hx, logData]
  change ((s.toMem.withPcb p (x.finish s.shmRT (clk .finish))).pcb p >>= fun x =>
    Except.ok _) >>= _ = _
  rw [hpcb, ok_bind, ok_bind]
  change ((s.toMem.withPcb p (x.finish s.shmRT (clk .finish))).pcb p >>= _) = _
  rw [hpcb, ok_bind]
  rfl

theorem reap_outcome (hK : Kept K room adm) (h : Held K s [] s.currProcess.toList)
    (hpc : s.pc = .reap) : PhaseOutcome K P clk s (s.reap clk) := by
  cases hp : s.currProcess with
  | none =>
    simp only [PhaseOutcome, RRState.reap, hp]
    exact fun he => nomatch he
  | some p =>
    rw [hp] at h
    have hmem : p ∈ s.currentPCBs := h.wf.cur hp
    obtain ⟨x, hx⟩ := h.wf.alloc hmem
    let y := x.finish s.shmRT (clk .finish)
    have hR : x.state ≠ .B := by
      rw [(h.running p (Option.mem_toList.mpr rfl)).eq hx]
      exact nofun
    have hown : x.Own y :=
      ⟨rfl, rfl, rfl, rfl, rfl, (fun hB => nomatch hB), fun hB => absurd hB hR, rfl⟩
    have htake : Held K s [p] [] := ⟨h.toCustody.takeRunning, h.mem⟩
    have hheld := htake.own hK hx hown
    have hlive : (s.toMem.withPcb p y).Live p y := ⟨hmem, withPcb_heap_self ..⟩
    have hwaitpid : Outcome (fun _ => ∀ c, s.child p = some c → c.exited = true) NotUnderflow
        (s.waitpid p) := by
      rw [waitpid]
      cases hc : s.child p with
      | none => exact fun c hc' => nomatch hc'
      | some c =>
        dsimp only
        split_ifs with hex
        · rintro c' ⟨⟩
          exact hex
        · exact fun he => nomatch he
    cases hw : s.waitpid p with
    | error e =>
      simp only [PhaseOutcome, RRState.reap, hp, hw]
      exact hwaitpid.of_error hw
    | ok _ =>
      have hwait := hwaitpid.of_ok hw
      rw [PhaseOutcome, reap_eq clk hp hx hw]
      have hrel := release_outcome hheld.wf hlive
      cases hm : (s.toMem.withPcb p y).release p with
      | error e => exact hrel.of_error hm
      | ok m =>
        have hr := (hrel.of_ok hm).of_withPcb
        have hK' : K m := hK.finish hheld.mem hlive hm
        have hcur : m.currProcess = none := hr.cur
        refine ⟨?_, .reap hpc hp hx hwait hr⟩
        show Held K _ [] m.currProcess.toList
        rw [hcur]
        exact ⟨(h.toCustody.finish hr).of_eq rfl rfl rfl rfl rfl, hK'⟩

theorem receive_outcome (hK : Kept K room adm) (h : Held K s [] s.currProcess.toList)
    (hpc : s.pc = .receive) (hin : Incoming adm s) :
    PhaseOutcome K P clk s s.receiveProcesses := by
  rw [PhaseOutcome, receiveProcesses]
  cases hrcv : MsgQueue.rcv ProcessData.mtype (-5) s.msgq with
  | none => exact fun he => nomatch he
  | some r =>
    obtain ⟨d, rest⟩ := r
    have hrest : Held K { s with msgq := rest } [] s.currProcess.toList :=
      h.of_eq rfl rfl rfl rfl rfl
    dsimp only
    split_ifs with h1 h2 hnew h5
    · have hd : d ∈ s.msgq :=
        (MsgQueue.perm_of_rcv hrcv).mem_iff.mpr List.mem_cons_self
      obtain ⟨hadm, hid⟩ := hin d hd h1
      exact ⟨⟨hrest.toCustody.receive hid, hK.create h.mem h.fresh hid hadm⟩, .arrive hpc hrcv h1⟩
    · exact ⟨h.of_eq rfl rfl rfl rfl rfl, .sync hpc hrcv h2 hnew⟩
    · exact ⟨hrest, .drop hpc hrcv h1 (by omega) fun _ => by omega⟩
    · exact ⟨h.of_eq rfl rfl rfl rfl rfl, .last hpc hrcv h5⟩
    · exact ⟨hrest, .drop hpc hrcv h1 h5 fun hc => absurd hc h2⟩

theorem clearIfDue_outcome (hK : Kept K room adm) (h : Held K s l c) (P : Params) :
    Outcome (fun s' => Held K s' l c ∧ ∃ m print cl, SameCore s.toMem m ∧
      (m = s.toMem ∨ s.clearRecent = .ok m) ∧
        s' = { s with toMem := m, lastPrint := print, clears := cl })
      NotUnderflow (s.clearIfDue P) := by
  rw [clearIfDue]
  split_ifs with hdue
  · have hkeep := (clearRecent_keeps s.toMem : KeepsIn none s.toMem _)
    cases hm : s.clearRecent with
    | error e => exact hkeep.of_error hm
    | ok m =>
      have hk := hkeep.of_ok hm
      have hc := h.toCustody.keeps hk fun _ hi => nomatch hi
      exact ⟨⟨hc.of_eq rfl rfl rfl rfl rfl, hK.clear h.mem hm⟩, m, _, _, hk.sameCore,
        Or.inr rfl, rfl⟩
  · exact ⟨h, s.toMem, s.lastPrint, s.clears, SameCore.refl _, Or.inl rfl, rfl⟩

theorem permit_held (h : Held K s l c) : Held K s.permit l c := by
  rw [permit]
  split_ifs
  · exact h.of_eq rfl rfl rfl rfl rfl
  · exact h

theorem permit_cur (s : RRState) : s.permit.currProcess = s.currProcess := by
  rw [permit]
  split_ifs <;> rfl

theorem algo_outcome (hK : Kept K room adm) (h : Held K s [] s.currProcess.toList)
    (hpc : s.pc = .algo)
    (hroom : 0 < s.now → ∀ s₁ r, Launches clk s s₁ r → room .pageTable r 0 s₁.RAM) :
    PhaseOutcome K P clk s (goto .last (s.algo P clk)) := by
  have halgo : Outcome (fun s₁ => Held K s₁ [] s₁.currProcess.toList ∧
      ((0 < s.now ∧ Decides K P clk s s₁) ∨ (s.now ≤ 0 ∧ s₁ = s))) NotUnderflow
      (s.algoFrom P clk) := by
    rw [algoFrom]
    split_ifs with hpos
    · exact (rrAlgo_outcome hK h (hroom hpos)).mono fun s₁ hs₁ => ⟨hs₁.1, Or.inl ⟨hpos, hs₁.2⟩⟩
    · exact ⟨h, Or.inr ⟨not_lt.mp hpos, rfl⟩⟩
  rw [PhaseOutcome, goto, algo]
  refine Outcome.bind (Q := fun s₂ => ∃ s₁ m print cl, Held K s₂ [] s₂.currProcess.toList ∧
    ((0 < s.now ∧ Decides K P clk s s₁) ∨ (s.now ≤ 0 ∧ s₁ = s)) ∧ SameCore s₁.toMem m ∧
    (K s₁.toMem ∧ (m = s₁.toMem ∨ s₁.clearRecent = .ok m)) ∧
    s₂ = permit { s₁ with toMem := m, lastPrint := print, clears := cl }) ?_ ?_
  · refine halgo.bind fun s₁ hs₁ => (clearIfDue_outcome hK hs₁.1 P).bind ?_
    rintro _ ⟨hheld, m, print, cl, hm, hclear, rfl⟩
    let s₂ : RRState := { s₁ with toMem := m, lastPrint := print, clears := cl }
    have hcur : s₂.permit.currProcess = s₁.currProcess := (permit_cur _).trans hm.cur
    refine ⟨s₁, m, print, cl, ?_, hs₁.2, hm, ⟨hs₁.1.mem, hclear⟩, rfl⟩
    rw [hcur]
    exact permit_held hheld
  · rintro _ ⟨s₁, m, print, cl, hheld, hd, hm, hclear, rfl⟩
    exact ⟨hheld.of_eq rfl rfl rfl rfl rfl, .algo hpc hd hm hclear⟩

theorem top_outcome (h : Held K s [] s.currProcess.toList) (hpc : s.pc = .top) :
    PhaseOutcome K P clk s (.ok (s.top clk)) := by
  rw [PhaseOutcome, outcome_ok, top]
  split_ifs with hgo hnow
  · exact ⟨h, .spin hpc⟩
  · exact ⟨h.of_eq rfl rfl rfl rfl rfl, .tick hpc hnow⟩
  · refine ⟨h.of_eq rfl rfl rfl rfl rfl, ?_⟩
    simp only [Bool.or_eq_true, not_or, Bool.not_eq_true, Bool.not_eq_false', Queue.isEmpty,
      List.isEmpty_iff, Option.isSome_eq_false_iff, Option.isNone_iff_eq_none] at hgo
    exact .exit hpc hgo.1.1.1 hgo.1.1.2 hgo.1.2 hgo.2

theorem gate_outcome (h : Held K s [] s.currProcess.toList) (hpc : s.pc = .gate) :
    PhaseOutcome K P clk s (.ok (s.gate clk)) := by
  rw [PhaseOutcome, outcome_ok, gate]
  dsimp only
  split_ifs with hopen hrec
  · exact ⟨h.of_eq rfl rfl rfl rfl rfl, .listen hpc hopen hrec.1 hrec.2⟩
  · exact ⟨h.of_eq rfl rfl rfl rfl rfl, .skip hpc hopen hrec⟩
  · refine ⟨h.of_eq rfl rfl rfl rfl rfl, .shut hpc ?_ ?_⟩ <;> omega

theorem firstScan_outcome (hK : Kept K room adm) (h : Held K s [] s.currProcess.toList)
    (hpc : s.pc = .blockEnd) : PhaseOutcome K P clk s (goto .finish (s.firstScan clk)) := by
  have h₀ : Held K { s with checked := false } [] s.currProcess.toList :=
    h.of_eq rfl rfl rfl rfl rfl
  rw [PhaseOutcome, goto, firstScan]
  dsimp only
  split_ifs with hscan
  · rw [checkOnce, if_neg (show (false : Bool) ≠ true from (by simp))]
    have hscan₁ : Outcome (fun s₂ => ∃ s₁, Held K s₁ [] s.currProcess.toList ∧
        Unblocks { s with checked := false } s₁ ∧ s₂ = { s₁ with checked := true }) NotUnderflow
        (({ s with checked := false } : RRState).checkBlockEnd clk >>= fun s₁ =>
          Except.ok { s₁ with checked := true }) :=
      (checkBlockEnd_outcome hK h₀ clk).bind fun s₁ hs₁ => ⟨s₁, hs₁.1, hs₁.2, rfl⟩
    refine hscan₁.bind ?_
    rintro _ ⟨s₁, hheld, ⟨m, u, b, n, hm, hb, rfl⟩, rfl⟩
    have hcur : m.currProcess = s.currProcess := hm.cur
    let s₁ : RRState :=
      { s with toMem := m, readyQueue := s.readyQueue ++ u, blockQueue := b, scans := n }
    have hu : Unblocks s s₁ := ⟨m, u, b, n, hm, hb, rfl⟩
    have ht : Turn K P clk s { s₁ with checked := true, pc := .finish } := .firstScan hpc hu
    refine ⟨?_, ht⟩
    show Held K _ [] m.currProcess.toList
    rw [hcur]
    exact hheld.of_eq rfl rfl rfl rfl rfl
  · exact ⟨h.of_eq rfl rfl rfl rfl rfl, @Turn.firstScan K P clk s s false hpc (Unblocks.refl s)⟩

theorem lastScan_outcome (hK : Kept K room adm) (h : Held K s [] s.currProcess.toList)
    (hpc : s.pc = .last) : PhaseOutcome K P clk s (goto .top (s.lastScan clk)) := by
  rw [PhaseOutcome, goto, lastScan]
  split_ifs with hscan
  · refine (checkBlockEnd_outcome hK h clk).bind ?_
    rintro _ ⟨hheld, hu⟩
    obtain ⟨m, u, b, n, hm, -, rfl⟩ := id hu
    have hcur : m.currProcess = s.currProcess := hm.cur
    refine ⟨?_, .lastScan hpc hu⟩
    show Held K _ [] m.currProcess.toList
    rw [hcur]
    exact hheld.of_eq rfl rfl rfl rfl rfl
  · exact ⟨h.of_eq rfl rfl rfl rfl rfl, .lastScan hpc (Unblocks.refl s)⟩

/-- **What a phase of the main loop does**: it keeps custody of the processes, it keeps
what the memory operations keep, it takes nothing out of an empty queue, and its
effect on the scheduling side is one of the moves of `CpuScheduler.RRState.Turn`. -/
theorem phase_outcome (hK : Kept K room adm) (h : Held K s [] s.currProcess.toList)
    (hroom : Roomy room clk s) (hin : Incoming adm s) :
    PhaseOutcome K P clk s (s.phase P clk) := by
  rw [phase]
  cases hpc : s.pc with
  | top => exact top_outcome h hpc
  | requests =>
    rw [PhaseOutcome, goto]
    dsimp only
    refine (handleRequests_outcome hK h fun p page hp hd => hroom.demand hpc hp p page hd).bind ?_
    rintro s₁ ⟨hheld, ⟨hcur, rfl⟩ | ⟨hcur, hs⟩⟩
    · exact ⟨hheld.of_eq rfl rfl rfl rfl rfl, .idle hpc hcur⟩
    · exact ⟨hheld.of_eq rfl rfl rfl rfl rfl, .serve hpc hcur hs⟩
  | blockEnd => exact firstScan_outcome hK h hpc
  | finish =>
    rw [PhaseOutcome]
    dsimp only
    rw [outcome_ok, handleFinishedProcesses]
    split_ifs with hsig
    · exact ⟨h.of_eq rfl rfl rfl rfl rfl, .finish hpc hsig.1 hsig.2⟩
    · refine ⟨h.of_eq rfl rfl rfl rfl rfl, .unfinished hpc ?_⟩
      cases hc : s.currProcess with
      | none => exact Or.inl rfl
      | some p => exact Or.inr (Bool.eq_false_iff.mpr fun hs => hsig ⟨by rw [hc]; rfl, hs⟩)
  | reap => exact reap_outcome hK h hpc
  | gate => exact gate_outcome h hpc
  | receive => exact receive_outcome hK h hpc hin
  | algo => exact algo_outcome hK h hpc (hroom.launch hpc)
  | last => exact lastScan_outcome hK h hpc
  | exited => exact fun he => nomatch he

end RRState

end CpuScheduler
