import CpuScheduler.Mmu.Ops
import CpuScheduler.RR.Custody

/-!
# What a turn of the main loop can do

The functions of the scheduler are gone through once, for everything that is proved
later. For each of them there is one lemma: under custody, it does not take anything
out of an empty queue, it keeps custody and every predicate of the memory that is kept
by the memory operations (`CpuScheduler.Mem.Kept`), and what it does on the scheduling
side is one of a few explicit moves. The memory that a move ends in is known up to what
the scheduling side sees of it (`CpuScheduler.Mem.SameCore`).

* `CpuScheduler.RRState.Unblocks`: some blocked processes have become ready.
* `CpuScheduler.RRState.Serves`: a request has been served, and perhaps the running
  process has been blocked for it.
* `CpuScheduler.RRState.Dispatches`: the first ready process has become the running one.
* `CpuScheduler.RRState.Decides`: what `RR_algo` does.
-/

namespace CpuScheduler

/-- A process that is taken off the processor: its remaining time is read from the
shared cell. -/
def PCB.halt (x : PCB) (remaining t : ℤ) : PCB :=
  { x with lState := .stop, remainingTime := remaining, lastStopped := t }

/-- The start time, for a process that is dispatched for the first time. -/
def PCB.stamped (clk : Clk) (x : PCB) : PCB :=
  if x.startTime = -1 then
    { x with startTime := clk .start, waitingTime := clk .start - x.arrival }
  else x

/-- A process that has been forked. -/
def PCB.started (p : Ptr) (x : PCB) : PCB := { x with lState := .start, pid := (p : ℤ) + 1 }

/-- A process that is dispatched again. -/
def PCB.resumed (clk : Clk) (x : PCB) : PCB :=
  { x with
    waitingTime := if x.lastStopped ≥ 0 then x.waitingTime + (clk .resume - x.lastStopped)
      else x.waitingTime
    lState := .resume }

/-- A process that is dispatched. -/
def PCB.dispatched (clk : Clk) (p : Ptr) (x : PCB) : PCB :=
  if x.pid = -1 then (x.stamped clk).started p else (x.stamped clk).resumed clk

namespace RRState

open Fallible Mem

variable {K : Mem → Prop} {room : Room}
  {adm : ProcessData → Prop} {P : Params} {clk : Clk} {s s' t : RRState} {l c : List Ptr}
  {p : Ptr} {x y : PCB}

/-- Custody, and a predicate of the memory. -/
structure Held (K : Mem → Prop) (s : RRState) (l c : List Ptr) : Prop extends Custody s l c where
  mem : K s.toMem

theorem Held.of_eq (h : Held K s l c) (hm : s'.toMem = s.toMem)
    (hr : s'.readyQueue = s.readyQueue) (hb : s'.blockQueue = s.blockQueue)
    (hrec : s'.received = s.received) (hf : s'.finished = s.finished) : Held K s' l c :=
  ⟨h.toCustody.of_eq hm hr hb hrec hf, hm ▸ h.mem⟩

/-- A process in transit is live. -/
theorem Custody.transit (h : s.Custody (p :: l) c) : ∃ x, s.toMem.Live p x :=
  h.live (h.mem_iff.mpr (Or.inl List.mem_cons_self))

/-- A write of the scheduler to the PCB of a process in transit. -/
theorem Held.own (hK : Kept K room adm) (h : Held K s (p :: l) c) (hx : s.heap p = some x)
    (hw : x.Own y) : Held K { s with toMem := s.toMem.withPcb p y } (p :: l) c := by
  obtain ⟨z, hz⟩ := h.toCustody.transit
  obtain rfl := Option.some.inj (hz.2.symm.trans hx)
  exact ⟨h.toCustody.withPcb hx (key_id hw.key), hK.write h.mem hz hw⟩

/-! ### Unblocking -/

/-- Some processes have moved from the block queue to the rear of the ready queue. -/
def Unblocks (s s' : RRState) : Prop :=
  ∃ m u b n, SameCore s.toMem m ∧ b ⊆ s.blockQueue ∧
    s' = { s with toMem := m, readyQueue := s.readyQueue ++ u, blockQueue := b, scans := n }

theorem Unblocks.refl (s : RRState) : Unblocks s s :=
  ⟨s.toMem, [], s.blockQueue, s.scans, SameCore.refl _, List.Subset.refl _, by rw [List.append_nil]⟩

theorem Unblocks.trans (h : Unblocks s s') (h' : Unblocks s' t) : Unblocks s t := by
  obtain ⟨m, u, b, n, hm, hb, rfl⟩ := h
  obtain ⟨m', u', b', n', hm', hb', rfl⟩ := h'
  exact ⟨m', u ++ u', b', n', hm.trans hm', fun q hq => hb (hb' hq), by rw [List.append_assoc]⟩

/-- The release of the reservation, and the write that makes the process ready. -/
theorem releasePending_outcome (hK : Kept K room adm) (h : Held K s (p :: l) c)
    (hB : InState s.toMem .B p) (clk : Clk) (k : ℕ) :
    Outcome (fun s' => Held K s' (p :: l) c ∧ InState s'.toMem .W p ∧
      ∃ m, SameCore s.toMem m ∧ s' = { s with toMem := m }) NotUnderflow
      (s.releasePending clk k p >>= fun s => s.update p fun x => { x with state := .W }) := by
  obtain ⟨x, hx⟩ := h.toCustody.transit
  obtain ⟨x', hx', hstate⟩ := hB
  obtain rfl := Option.some.inj (hx.2.symm.trans hx')
  rw [releasePending, pcb_eq hx.2, ok_bind]
  split_ifs with hpend
  · -- the reservation is released
    let m₀ := s.logLine (.loaded (clk (.blockEndLog k)) (x.base + x.pendingPage) x.id
      x.pendingFrame)
    change Outcome _ _ ((s.onMem (m₀.freeReserved x.pendingFrame) >>= _) >>= _)
    have hkeep : KeepsIn none s.toMem (m₀.freeReserved x.pendingFrame) :=
      (freeReserved_keeps m₀ x.pendingFrame).of_frames rfl rfl rfl rfl
    cases hm : m₀.freeReserved x.pendingFrame with
    | error e => exact hkeep.of_error hm
    | ok m =>
      have hk := hkeep.of_ok hm
      have hxm : ({ s with toMem := m } : RRState).heap p = some x := by
        obtain ⟨i, -, rfl⟩ := freeReserved_eq_ok hm
        exact hx.2
      let y : PCB := { x with pendingPage := -1, pendingFrame := -1, state := .W }
      have hc := (h.toCustody.keeps hk fun _ hi => absurd hi (by simp)).withPcb (y := y) hxm rfl
      have hy : K (m.withPcb p y) := hK.unblock h.mem hx hstate hm
      have hsame : SameCore s.toMem (m.withPcb p y) :=
        hk.sameCore.trans (sameCore_withPcb (y := y) hxm rfl)
      rw [onMem, ok_bind, ok_bind, update_eq hxm, ok_bind, update_eq (withPcb_heap_self ..),
        outcome_ok, withPcb_withPcb]
      exact ⟨⟨hc, hy⟩, ⟨y, withPcb_heap_self .., rfl⟩, m.withPcb p y, hsame, rfl⟩
  · let y : PCB := { x with state := .W }
    have hy : x.Own y := ⟨rfl, rfl, rfl, rfl, rfl, (by simp),
      fun _ => Or.inr (not_and_or.mp hpend |>.imp not_not.mp not_not.mp), rfl⟩
    rw [ok_bind, update_eq hx.2, outcome_ok]
    exact ⟨h.own hK hx.2 hy, ⟨y, withPcb_heap_self .., rfl⟩, s.toMem.withPcb p y,
      sameCore_withPcb (y := y) hx.2 rfl, rfl⟩

/-- The ids of the processes can always be read, or the pointer is freed. -/
theorem idOf_any (m : Mem) (p : Ptr) : Outcome (fun _ => True) NotUnderflow (m.idOf p) :=
  (idOf_outcome m p).mono fun _ _ => trivial

theorem unblock_outcome (hK : Kept K room adm) (h : Held K s l c) (clk : Clk) (k : ℕ) (id : ℤ) :
    Outcome (fun s' => Held K s' l c ∧ Unblocks s s') NotUnderflow (s.unblock clk k id) := by
  refine (Queue.dequeueById_outcome (idOf_any s.toMem) id s.blockQueue).bind fun r hr => ?_
  match r with
  | none => exact ⟨h, Unblocks.refl s⟩
  | some (p, rest) =>
    obtain ⟨-, a, b, hq, rfl⟩ := hr p rest rfl
    have htake : Held K { s with blockQueue := a ++ b } (p :: l) c :=
      ⟨h.toCustody.takeBlocked hq, h.mem⟩
    have hB : InState s.toMem .B p := h.blocked p (hq ▸ List.mem_append_right a List.mem_cons_self)
    have hrel := releasePending_outcome hK htake hB clk k
    dsimp only
    cases hs₁ : ({ s with blockQueue := a ++ b } : RRState).releasePending clk k p with
    | error e =>
      rw [hs₁] at hrel
      exact hrel
    | ok s₁ =>
      rw [hs₁, ok_bind] at hrel
      rw [ok_bind]
      refine hrel.bind ?_
      rintro s₂ ⟨hs₂, hW, m, hm, rfl⟩
      refine ⟨⟨hs₂.toCustody.putReady hW, hs₂.mem⟩, m, [p], a ++ b, s.scans, hm, ?_, rfl⟩
      show a ++ b ⊆ s.blockQueue
      rw [hq]
      exact (List.sublist_cons_self p b).append_left a |>.subset

theorem blockEndNode_outcome (hK : Kept K room adm) (h : Held K s l c) (clk : Clk) (k : ℕ)
    (p : Ptr) :
    Outcome (fun s' => Held K s' l c ∧ Unblocks s s') NotUnderflow (s.blockEndNode clk k p) :=
  (pcb_outcome s.toMem p).bind fun x _ => Outcome.ite (fun _ => unblock_outcome hK h clk k x.id)
    fun _ => ⟨h, Unblocks.refl s⟩

theorem blockEndFrom_outcome (hK : Kept K room adm) (clk : Clk) : ∀ (nodes : List Ptr) (k : ℕ)
    {s : RRState}, Held K s l c →
    Outcome (fun s' => Held K s' l c ∧ Unblocks s s') NotUnderflow (s.blockEndFrom clk k nodes)
  | [], _, s, h => ⟨h, Unblocks.refl s⟩
  | p :: nodes, k, s, h => by
    refine (blockEndNode_outcome hK h clk k p).bind ?_
    rintro s₁ ⟨h₁, hu⟩
    exact (blockEndFrom_outcome hK clk nodes (k + 1) h₁).mono fun s₂ ⟨h₂, hu₂⟩ =>
      ⟨h₂, hu.trans hu₂⟩

/-- **`checkBlockEnd` moves blocked processes to the ready queue.** -/
theorem checkBlockEnd_outcome (hK : Kept K room adm) (h : Held K s l c) (clk : Clk) :
    Outcome (fun s' => Held K s' l c ∧ Unblocks s s') NotUnderflow (s.checkBlockEnd clk) := by
  have hcall : Unblocks s { s with scans := s.scans + 1 } :=
    ⟨s.toMem, [], s.blockQueue, s.scans + 1, SameCore.refl _, List.Subset.refl _, by
      rw [List.append_nil]⟩
  have hheld : Held K { s with scans := s.scans + 1 } l c := h.of_eq rfl rfl rfl rfl rfl
  exact (blockEndFrom_outcome hK clk s.blockQueue 0 hheld).mono fun _ hs' =>
    ⟨hs'.1, hcall.trans hs'.2⟩

/-! ### Requests -/

/-- In the state `s`, `checkReqs` calls `fault_handler` for the page of `owner`. -/
def Demands (clk : Clk) (s : RRState) (owner : Ptr) (page : ℤ) : Prop :=
  ∃ req rest, s.requests = req :: rest ∧ s.getProcess req.mtype = .ok (some owner) ∧
    page = (parseHexaAddress req.address).page ∧
    s.check owner page req.operation = .ok (.miss, s.toMem) ∧ req.tick ≤ clk .reqDue ∧
    (s.currProcess = some owner ∨ owner ∈ s.readyQueue)

/-- What is demanded is determined by the first request. -/
theorem Demands.unique {req : Request} {rest : List Request} {page : ℤ} {q : Ptr}
    (h : Demands clk s q page) (hreq : s.requests = req :: rest)
    (howner : s.getProcess req.mtype = .ok (some p)) :
    q = p ∧ page = (parseHexaAddress req.address).page ∧
      s.check p page req.operation = .ok (.miss, s.toMem) ∧ req.tick ≤ clk .reqDue := by
  obtain ⟨req', rest', hreq', howner', hpage, hmiss, hdue, -⟩ := h
  obtain ⟨rfl, -⟩ := List.cons.inj (hreq'.symm.trans hreq)
  obtain rfl : q = p := Option.some.inj (Except.ok.inj (howner'.symm.trans howner))
  exact ⟨rfl, hpage, hmiss, hdue⟩

/-- The PCB of the running process when it is blocked. -/
def blockedPcb (clk : Clk) (s : RRState) (x : PCB) : PCB :=
  { x.halt s.shmRT (clk .reqStopped) with state := .B }

/-- **What `checkReqs` does.** -/
inductive Serves (clk : Clk) (s : RRState) : RRState → Prop
  /-- No page is loaded. -/
  | keep {m rq ck} (hd : ∀ p page, ¬Demands clk s p page) (hm : SameCore s.toMem m)
      (hrq : rq ⊆ s.requests) :
      Serves clk s { s with toMem := m, requests := rq, checks := ck }
  /-- A page is loaded for a process of the ready queue. -/
  | block {m rq ck r p x page raw op} (hx : s.heap p = some x) (hd : Demands clk s p page)
      (hf : (s.toMem.withPcb p { x with state := .B }).faultHandler clk x.id page .demand raw op
        = .ok m)
      (hm : SameCore s.toMem m) (hrq : rq ⊆ s.requests) (hr : r.Sublist s.readyQueue) :
      Serves clk s { s with
        toMem := m, requests := rq, checks := ck, readyQueue := r,
        blockQueue := Queue.enqueue s.blockQueue p }
  /-- A page is loaded for the running process. -/
  | switch {m rq ck p x page raw op} (hp : s.currProcess = some p) (hx : s.heap p = some x)
      (hd : Demands clk s p page)
      (hf : (s.toMem.withPcb p (s.blockedPcb clk x)).faultHandler clk x.id page .demand raw op
        = .ok m)
      (hm : SameCore (s.toMem.withPcb p (x.halt s.shmRT (clk .reqStopped))) m)
      (hrq : rq ⊆ s.requests) :
      Serves clk s { s with
        toMem := { m with currProcess := none }
        requests := rq
        checks := ck
        quantumsPassed := s.quantumsPassed + 1
        schedulerLog := s.schedulerLog ++
          [lineOf { x with lState := .stop, remainingTime := s.shmRT } (clk .reqLog)]
        blockQueue := Queue.enqueue s.blockQueue p
        contextSwitchUntil := clk .reqSwitchAgain + 1
        nextPreemtionTime := -1
        child := if x.pid > 0 then (s.signal p true).child else s.child }

theorem blockCurrent_eq (clk : Clk) (hx : s.heap p = some x) :
    s.blockCurrent clk p = .ok { s with
      toMem := s.toMem.withPcb p (s.blockedPcb clk x)
      quantumsPassed := s.quantumsPassed + 1
      schedulerLog := s.schedulerLog ++
        [lineOf { x with lState := .stop, remainingTime := s.shmRT } (clk .reqLog)]
      blockQueue := Queue.enqueue s.blockQueue p } := by
  rw [blockCurrent, update_eq hx, ok_bind, logData_eq (withPcb_heap_self ..), ok_bind,
    update_eq (withPcb_heap_self ..), ok_bind]
  simp only [withPcb_withPcb]
  rfl

/-- The process whose page is loaded was running: it is switched from. -/
theorem switchFrom_outcome (clk : Clk) (hx : s.heap p = some x) :
    s.switchFrom clk p = .ok { s with
      currProcess := none
      contextSwitchUntil := clk .reqSwitchAgain + 1
      nextPreemtionTime := -1
      child := if x.pid > 0 then (s.signal p true).child else s.child } := by
  rw [switchFrom, pcb_eq hx, ok_bind]
  split_ifs <;> rfl

/-- The fault handler is called for a process that has just been blocked. -/
theorem fault_outcome (hK : Kept K room adm) (h : s.Custody l c) (hs : K t.toMem)
    (hx : t.toMem.Live p x) (hst : x.state ≠ .B) (hmem : s.toMem = t.toMem.withPcb p y)
    (hp : p ∈ s.blockQueue)
    (hy : x.Own { y with state := x.state }) {page : ℤ} {raw : List Char} {op : Char}
    (hroom : room .demand p page t.RAM) (hpage : page = (parseHexaAddress raw).page)
    (hmiss : t.check p page op = .ok (.miss, t.toMem)) :
    Outcome (fun m => Held K { s with toMem := m } l c ∧ SameCore s.toMem m) NotUnderflow
      (s.faultHandler clk y.id page .demand raw op) := by
  have hid : y.id = x.id := key_id hy.key
  have hkeep := faultHandler_keeps clk s.toMem y.id page .demand raw op
  cases hm : s.faultHandler clk y.id page .demand raw op with
  | error e => exact hkeep.of_error hm
  | ok m =>
    have hk := hkeep.of_ok hm
    have hc := h.keeps hk fun i hi => ⟨p, y, by rw [hmem, withPcb_heap_self],
      Option.some.inj hi, Or.inr hp⟩
    rw [hmem, hid] at hm
    exact ⟨⟨hc, hK.block hs hx hst hmiss hroom hpage hy hm⟩, hk.sameCore⟩

theorem onMem_outcome {Q : Mem → Prop} {E : Fault → Prop} {r : Except Fault Mem}
    (h : Outcome Q E r) :
    Outcome (fun s' => ∃ m, r = .ok m ∧ Q m ∧ s' = { s with toMem := m }) E (s.onMem r) := by
  cases r with
  | error e => exact h
  | ok m => exact ⟨m, rfl, h, rfl⟩

/-- The miss of the running process. -/
theorem handleMiss_running (hK : Kept K room adm) (h : Held K s [] s.currProcess.toList)
    (hp : s.currProcess = some p) (hx : s.heap p = some x) {req : Request} {page : ℤ}
    (hd : Demands clk s p page) (hroom : room .demand p page s.RAM)
    (hpage : page = (parseHexaAddress req.address).page)
    (hmiss : s.check p page req.operation = .ok (.miss, s.toMem)) {rq : List Request}
    (hrq : rq ⊆ s.requests) (ck : List (Ptr × Request × CheckResult)) :
    Outcome (fun s' => Held K s' [] s'.currProcess.toList ∧ Serves clk s s') NotUnderflow
      (({ s with requests := rq, checks := ck } : RRState).handleMiss clk p page req) := by
  have hrun : s.Custody [p] [] := by
    have hc := h.toCustody
    rw [hp] at hc
    exact hc.takeRunning
  have hlive : s.toMem.Live p x := ⟨hrun.mem_iff.mpr (Or.inl List.mem_cons_self), hx⟩
  let y := s.blockedPcb clk x
  let s₁ : RRState := { s with
    requests := rq
    checks := ck
    toMem := s.toMem.withPcb p y
    quantumsPassed := s.quantumsPassed + 1
    schedulerLog := s.schedulerLog ++
      [lineOf { x with lState := .stop, remainingTime := s.shmRT } (clk .reqLog)]
    blockQueue := Queue.enqueue s.blockQueue p }
  have hy : s₁.heap p = some y := withPcb_heap_self ..
  have hc₁ : s₁.Custody [] [] :=
    ((hrun.withPcb (y := y) hx rfl).putBlocked ⟨y, hy, rfl⟩).of_eq rfl rfl rfl rfl rfl
  have hown : x.Own { y with state := x.state } := ⟨rfl, rfl, rfl, rfl, rfl, id, Or.inl, rfl⟩
  have hR : x.state ≠ .B := by
    rw [(h.running p (Option.mem_toList.mpr hp)).eq hx]
    exact nofun
  have hblock : ({ s with requests := rq, checks := ck } : RRState).blockCurrent clk p = .ok s₁ :=
    blockCurrent_eq clk hx
  rw [handleMiss, if_pos (show s.currProcess = some p from hp), hblock, ok_bind, resolveMiss,
    pcb_eq hy, ok_bind]
  have hq : p ∈ s₁.blockQueue := Queue.mem_enqueue.mpr (Or.inr rfl)
  refine (onMem_outcome (fault_outcome hK hc₁ h.mem hlive hR rfl hq hown hroom hpage hmiss)).bind ?_
  rintro _ ⟨m, hm, ⟨hheld, hsame⟩, rfl⟩
  obtain ⟨z, hz, hcore⟩ := hsame.symm.pcb hy
  have hcur : m.currProcess = some p := hsame.cur.trans hp
  have hpid : z.pid = x.pid := (core_eq hcore).2.2.2.2.2.2.2.1.symm
  have hwrite : SameCore (s.toMem.withPcb p (x.halt s.shmRT (clk .reqStopped))) s₁.toMem :=
    (SameCore.refl s.toMem).withPcb p rfl
  rw [if_pos hcur, switchFrom_outcome clk hz, hpid]
  have hnone : K { m with currProcess := none } := hK.choose hheld.mem fun _ hq => nomatch hq
  refine ⟨⟨(hheld.toCustody.choose none fun _ hq => nomatch hq).of_eq rfl rfl rfl rfl rfl,
    hnone⟩, ?_⟩
  exact .switch hp hx hd hm (hwrite.trans hsame) hrq

/-- The miss of a process that is not running. -/
theorem handleMiss_ready (hK : Kept K room adm) (h : Held K s [] s.currProcess.toList)
    (hp : s.currProcess ≠ some p) (hx : s.toMem.Live p x) {req : Request} {page : ℤ}
    (hd : p ∈ s.readyQueue → Demands clk s p page) (hself : ∀ q v, Demands clk s q v → q = p)
    (hroom : ∀ p page, Demands clk s p page → room .demand p page s.RAM)
    (hpage : page = (parseHexaAddress req.address).page)
    (hmiss : s.check p page req.operation = .ok (.miss, s.toMem)) {rq : List Request}
    (hrq : rq ⊆ s.requests) (ck : List (Ptr × Request × CheckResult)) :
    Outcome (fun s' => Held K s' [] s'.currProcess.toList ∧ Serves clk s s') NotUnderflow
      (({ s with requests := rq, checks := ck } : RRState).handleMiss clk p page req) := by
  rw [handleMiss, if_neg (show s.currProcess ≠ some p from hp), blockReady, pcb_eq hx.2, ok_bind]
  have hdeq := Queue.dequeueById_outcome (idOf_any s.toMem) x.id s.readyQueue
  dsimp only
  cases hr : Queue.dequeueById s.idOf x.id s.readyQueue with
  | error e => exact hdeq.of_error hr
  | ok r =>
    match r with
    | none =>
      refine ⟨h.of_eq rfl rfl rfl rfl rfl, .keep (fun q v hq => ?_) (SameCore.refl _) hrq⟩
      -- the process is not in the ready queue, so nothing is demanded
      obtain rfl := hself q v hq
      obtain ⟨req', rest', -, -, -, -, -, hcur | hmem⟩ := hq
      · exact hp hcur
      · have hready : ∀ r ∈ s.readyQueue, r ∈ s.currentPCBs := fun r hr =>
          h.mem_iff.mpr (Or.inr (Or.inr (Or.inl hr)))
        rw [Queue.dequeueById_self (fun r hr => h.wf.idOf_inj hx r (hready r hr)) hmem
          (idOf_eq hx.2)] at hr
        exact nomatch hr
    | some (q, rest) =>
      obtain ⟨hq, a, b, hsplit, rfl⟩ := hdeq.of_ok hr q rest rfl
      have hmem : q ∈ s.readyQueue := hsplit ▸ List.mem_append_right a List.mem_cons_self
      obtain ⟨z, hz⟩ := h.toCustody.live (h.mem_iff.mpr (Or.inr (Or.inr (Or.inl hmem))))
      -- ids tell the processes apart
      obtain rfl : q = p := h.wf.ids hz hx (Except.ok.inj ((idOf_eq hz.2).symm.trans hq))
      let y : PCB := { x with state := .B }
      let s₁ : RRState := { s with
        requests := rq
        checks := ck
        toMem := s.toMem.withPcb q y
        readyQueue := a ++ b
        blockQueue := Queue.enqueue s.blockQueue q }
      have hy : s₁.heap q = some y := withPcb_heap_self ..
      have hc₁ : s₁.Custody [] s.currProcess.toList :=
        (((h.toCustody.takeReady hsplit).withPcb (y := y) hx.2 rfl).putBlocked
          ⟨y, hy, rfl⟩).of_eq rfl rfl rfl rfl rfl
      have hown : x.Own { y with state := x.state } := ⟨rfl, rfl, rfl, rfl, rfl, id, Or.inl, rfl⟩
      have hW : x.state ≠ .B := by
        rw [(h.ready q hmem).eq hx.2]
        exact nofun
      rw [ok_bind]
      dsimp only
      let s₂ : RRState := { s with requests := rq, checks := ck, readyQueue := a ++ b }
      have hheap : s₂.heap q = some x := hx.2
      rw [update_eq hheap, ok_bind, ok_bind]
      change Outcome _ _ (s₁.resolveMiss clk q page req)
      rw [resolveMiss, pcb_eq hy, ok_bind]
      have hqb : q ∈ s₁.blockQueue := Queue.mem_enqueue.mpr (Or.inr rfl)
      have hdem := hd hmem
      refine (onMem_outcome (fault_outcome hK hc₁ h.mem hx hW rfl hqb hown (hroom q page hdem)
        hpage hmiss)).bind ?_
      rintro _ ⟨m, hm, ⟨hheld, hsame⟩, rfl⟩
      have hcur : m.currProcess = s.currProcess := hsame.cur
      rw [if_neg (show m.currProcess ≠ some q from hcur ▸ hp), outcome_ok]
      refine ⟨?_, .block hx.2 hdem hm (SameCore.trans ?_ hsame) hrq ?_⟩
      · show Held K _ [] m.currProcess.toList
        rw [hcur]
        exact hheld
      · exact sameCore_withPcb (y := y) hx.2 rfl
      · rw [hsplit]
        exact (List.sublist_cons_self q b).append_left a

/-- A request whose owner is known. -/
theorem serveRequest_outcome (hK : Kept K room adm) (h : Held K s [] s.currProcess.toList)
    (hx : s.toMem.Live p x) {req : Request} {rest : List Request} (hreq : s.requests = req :: rest)
    (howner : s.getProcess req.mtype = .ok (some p))
    (hroom : ∀ p page, Demands clk s p page → room .demand p page s.RAM) :
    Outcome (fun s' => Held K s' [] s'.currProcess.toList ∧ Serves clk s s') NotUnderflow
      (s.serveRequest clk req p) := by
  have hkeep := check_keeps s.toMem p (parseHexaAddress req.address).page req.operation
  have hrq : rest ⊆ s.requests := fun r hr => hreq ▸ List.mem_cons_of_mem _ hr
  rw [serveRequest]
  dsimp only
  cases hr : s.check p (parseHexaAddress req.address).page req.operation with
  | error e => exact hkeep.of_error hr
  | ok r =>
    obtain ⟨result, m⟩ := r
    have hk := hkeep.of_ok hr
    have hm : K m := hK.access h.mem hx hr
    have hheld : ∀ rq ck,
        Held K { s with toMem := m, requests := rq, checks := ck } [] m.currProcess.toList := by
      intro rq ck
      have hc := (h.toCustody.keeps hk fun _ hi => nomatch hi)
      rw [← hk.cur] at hc
      exact ⟨hc.of_eq rfl rfl rfl rfl rfl, hm⟩
    have hnone : result ≠ .miss → ∀ q v, ¬Demands clk s q v := by
      intro hne q v hq
      obtain ⟨-, hv, hmiss, -⟩ := hq.unique hreq howner
      rw [hv] at hmiss
      exact hne (congrArg Prod.fst (Except.ok.inj (hr.symm.trans hmiss)))
    rw [ok_bind]
    dsimp only
    split_ifs with hdue
    · rw [hreq, Queue.dequeue_cons, ok_bind]
      dsimp only
      cases result with
      | hit => exact ⟨hheld rest _, .keep (hnone fun hc => nomatch hc) hk.sameCore hrq⟩
      | invalid => exact ⟨hheld rest _, .keep (hnone fun hc => nomatch hc) hk.sameCore hrq⟩
      | miss =>
        obtain rfl := check_miss_same hr
        by_cases hp : s.currProcess = some p
        · have hd : Demands clk s p (parseHexaAddress req.address).page :=
            ⟨req, rest, hreq, howner, rfl, hr, hdue, Or.inl hp⟩
          exact handleMiss_running hK h hp hx.2 hd (hroom p _ hd) rfl hr hrq _
        · exact handleMiss_ready hK h hp hx
            (fun hmem => ⟨req, rest, hreq, howner, rfl, hr, hdue, Or.inr hmem⟩)
            (fun q v hq => (hq.unique hreq howner).1) hroom rfl hr hrq _
    · refine ⟨hheld s.requests _, .keep (fun q v hq => ?_) hk.sameCore fun _ hr => hr⟩
      exact hdue (hq.unique hreq howner).2.2.2

/-- **`checkReqs` serves the first request.** -/
theorem checkReqs_outcome (hK : Kept K room adm) (h : Held K s [] s.currProcess.toList)
    (hroom : ∀ p page, Demands clk s p page → room .demand p page s.RAM) :
    Outcome (fun s' => Held K s' [] s'.currProcess.toList ∧ Serves clk s s') NotUnderflow
      (s.checkReqs clk) := by
  have hkept : (∀ q v, ¬Demands clk s q v) →
      Held K s [] s.currProcess.toList ∧ Serves clk s s := fun hnone =>
    ⟨h, .keep hnone (SameCore.refl _) fun _ hr => hr⟩
  rw [checkReqs]
  cases hreq : s.requests with
  | nil =>
    refine hkept ?_
    rintro q v ⟨req, rest, hreq', -⟩
    exact nomatch hreq.symm.trans hreq'
  | cons req rest =>
    simp only [Queue.isEmpty_cons, Bool.false_eq_true, if_false, Queue.peek, ok_bind]
    rcases getProcess_cases h.wf req.mtype with ⟨p, x, howner, hx, -⟩ | ⟨hnone, -⟩
    · rw [howner, ok_bind]
      exact serveRequest_outcome hK h hx hreq howner hroom
    · rw [hnone, ok_bind]
      refine hkept ?_
      rintro q v ⟨req', rest', hreq', howner', -⟩
      obtain ⟨rfl, -⟩ := List.cons.inj (hreq'.symm.trans hreq)
      exact nomatch hnone.symm.trans howner'

/-- The first thing a turn does: the next request of the running process is fetched. -/
def fetched (clk : Clk) (s : RRState) : RRState :=
  match s.currProcess.bind s.heap with
  | none => s
  | some x => s.fetchRequest clk x.id

theorem fetchRequest_eq (clk : Clk) (s : RRState) (id : ℤ) :
    ∃ rq mq, s.fetchRequest clk id = { s with requests := rq, reqMsgq := mq } := by
  rw [fetchRequest]
  split
  · exact ⟨s.requests, s.reqMsgq, rfl⟩
  · exact ⟨_, _, rfl⟩

theorem fetched_eq (clk : Clk) (s : RRState) :
    ∃ rq mq, s.fetched clk = { s with requests := rq, reqMsgq := mq } := by
  rw [fetched]
  split
  · exact ⟨s.requests, s.reqMsgq, rfl⟩
  · exact fetchRequest_eq clk s _

/-- **`handleRequests`** fetches a request and serves the first one, while a process is
running. -/
theorem handleRequests_outcome (hK : Kept K room adm) (h : Held K s [] s.currProcess.toList)
    (hroom : ∀ p page, s.currProcess.isSome → Demands clk (s.fetched clk) p page →
      room .demand p page s.RAM) :
    Outcome (fun s' => Held K s' [] s'.currProcess.toList ∧
      ((s.currProcess = none ∧ s' = s) ∨ (s.currProcess.isSome ∧ Serves clk (s.fetched clk) s')))
      NotUnderflow (s.handleRequests clk) := by
  cases hp : s.currProcess with
  | none =>
    simp only [handleRequests, hp]
    exact ⟨by rw [hp]; exact hp ▸ h, Or.inl ⟨trivial, rfl⟩⟩
  | some p =>
    obtain ⟨x, hx⟩ := h.wf.alloc (h.wf.cur hp)
    have hfetch : s.fetched clk = s.fetchRequest clk x.id := by
      rw [fetched, hp, Option.bind_some, hx]
    obtain ⟨rq, mq, hf⟩ := fetched_eq clk s
    have hheld : Held K (s.fetched clk) [] (s.fetched clk).currProcess.toList := by
      rw [hf]
      exact h.of_eq rfl rfl rfl rfl rfl
    have hram : (s.fetched clk).RAM = s.RAM := by rw [hf]
    simp only [handleRequests, hp, pcb_eq hx, ok_bind]
    rw [← hfetch]
    refine (checkReqs_outcome hK hheld fun q page hd => ?_).mono fun s' hs' =>
      ⟨hs'.1, Or.inr ⟨rfl, hs'.2⟩⟩
    rw [hram]
    exact hroom q page (by rw [hp]; rfl) hd

/-! ### Dispatching -/

theorem stamped_own (clk : Clk) (x : PCB) : x.Own (x.stamped clk) := by
  unfold PCB.stamped
  split_ifs <;> exact ⟨rfl, rfl, rfl, rfl, rfl, id, Or.inl, rfl⟩

theorem resumed_own (clk : Clk) (x : PCB) : x.Own (x.resumed clk) :=
  ⟨rfl, rfl, rfl, rfl, rfl, id, Or.inl, rfl⟩

/-- Dispatching keeps what a process is created with. -/
theorem dispatched_eq (clk : Clk) (p : Ptr) (x : PCB) : (x.dispatched clk p).id = x.id ∧
    (x.dispatched clk p).arrival = x.arrival ∧ (x.dispatched clk p).runtime = x.runtime := by
  unfold PCB.dispatched PCB.stamped
  split_ifs <;> exact ⟨rfl, rfl, rfl⟩

/-- The children after a process has been started or continued. -/
def launchedChild (P : Params) (s : RRState) (p : Ptr) (x : PCB) : Ptr → Option Child :=
  Function.update s.child p (if x.pid = -1 then some
    { id := x.id, remainingtime := x.remainingTime, runningTime := 0,
      reqs := P.requestFile x.id, stopped := false, exited := false }
    else (s.child p).map fun c => { c with stopped := false })

/-- The memory in which a process is initialized: it is already the running one. -/
def chosen (clk : Clk) (s : RRState) (p : Ptr) (x : PCB) : Mem :=
  ({ s.toMem with currProcess := some p } : Mem).withPcb p (x.stamped clk)

/-- **What a dispatch does.** -/
inductive Dispatches (P : Params) (clk : Clk) (s : RRState) : RRState → Prop
  | intro {p x m rest line} (hq : s.readyQueue = p :: rest) (hx : s.heap p = some x)
      (hstart : x.pid = -1 → ∃ m₀ z, (s.chosen clk p x).initializePCB clk p = .ok m₀ ∧
        m₀.heap p = some z ∧
        m = m₀.withPcb p { z.started p with state := .R })
      (hm : SameCore
        (({ s.toMem with currProcess := some p } : Mem).withPcb p (x.dispatched clk p)) m)
      (hline : line.lState ≠ .finish) : Dispatches P clk s { s with
        toMem := m
        readyQueue := rest
        shmRT := x.remainingTime
        schedulerLog := s.schedulerLog ++ [line]
        child := s.launchedChild P p x }

theorem startProcess_eq {m : Mem} {z : PCB} (hm : s.initializePCB clk p = .ok m)
    (hz : m.heap p = some z) : s.startProcess P clk p = .ok { s with
      toMem := m.withPcb p (z.started p)
      schedulerLog := s.schedulerLog ++ [lineOf { z with lState := .start } (clk .startLog)]
      child := Function.update s.child p (some
        { id := z.id, remainingtime := z.remainingTime, runningTime := 0,
          reqs := P.requestFile z.id, stopped := false, exited := false }) } := by
  have hz' : ({ s with toMem := m } : RRState).heap p = some z := hz
  rw [startProcess, hm, onMem, ok_bind, ok_bind, update_eq hz', ok_bind,
    logData_eq (withPcb_heap_self ..), ok_bind, pcb_eq (withPcb_heap_self ..), ok_bind,
    update_eq (withPcb_heap_self ..)]
  simp only [withPcb_withPcb, PCB.started]

theorem startProcess_outcome (hK : Kept K room adm) (h : Held K s (p :: l) c)
    (hx : s.heap p = some x) (hpid : x.pid = -1) (hroom : room .pageTable p 0 s.RAM) :
    Outcome (fun s' => Held K s' (p :: l) c ∧ ∃ m z line, s.initializePCB clk p = .ok m ∧
        m.heap p = some z ∧ z.core = x.core ∧ z.state = x.state ∧ Keeps none s.toMem m ∧
        line.lState ≠ .finish ∧
        s' = { s with
          toMem := m.withPcb p (z.started p)
          schedulerLog := s.schedulerLog ++ [line]
          child := s.launchedChild P p x }) NotUnderflow (s.startProcess P clk p) := by
  obtain ⟨x', hx'⟩ := h.toCustody.transit
  obtain rfl := Option.some.inj (hx'.2.symm.trans hx)
  have hkeep := initializePCB_keeps clk s.toMem p
  cases hm : s.initializePCB clk p with
  | error e =>
    rw [startProcess, hm]
    exact hkeep.of_error hm
  | ok m =>
    have hk := hkeep.of_ok hm
    obtain ⟨z, hz, hcore, hst⟩ := hk.pcb hx
    have hfields := core_eq hcore
    have hc := (h.toCustody.keeps hk fun _ hi => nomatch hi).withPcb (y := z.started p) hz rfl
    have hmem : K (m.withPcb p (z.started p)) := hK.launch h.mem hx' hpid (by omega) hroom hm hz
    rw [startProcess_eq hm hz, outcome_ok]
    refine ⟨⟨hc.of_eq rfl rfl rfl rfl rfl, hmem⟩, m, z,
      lineOf { z with lState := .start } (clk .startLog), rfl, hz, hcore,
      hst.resolve_right (fun h => nomatch h.2), hk, nofun, ?_⟩
    rw [launchedChild, if_pos hpid, hfields.1, hfields.2.2.2.1]

/-- The PCB of a process that is continued. -/
theorem resumeProcess_eq (clk : Clk) (hx : s.heap p = some x) :
    s.resumeProcess clk p = .ok { s with
      toMem := s.toMem.withPcb p (x.resumed clk)
      schedulerLog := s.schedulerLog ++ [lineOf (x.resumed clk) (clk .resumeLog)]
      child := (s.signal p false).child } := by
  rw [resumeProcess, update_eq hx, ok_bind, logData_eq (withPcb_heap_self ..), ok_bind]
  rfl

/-- The last write of `runProcess`. -/
theorem setRunning (hK : Kept K room adm) (h : Held K s (p :: l) c) (hx : s.heap p = some x)
    (hst : x.state ≠ .B) :
    Held K { s with toMem := s.toMem.withPcb p { x with state := .R } } l (p :: c) := by
  have hheld := h.own hK hx (y := { x with state := .R })
    ⟨rfl, rfl, rfl, rfl, rfl, (fun hB => nomatch hB), fun hB => absurd hB hst, rfl⟩
  exact ⟨hheld.toCustody.putRunning ⟨_, withPcb_heap_self .., rfl⟩, hheld.mem⟩

theorem launchedChild_stamped (P : Params) (clk : Clk) (s : RRState) (p : Ptr) (x : PCB) :
    s.launchedChild P p (x.stamped clk) = s.launchedChild P p x := by
  unfold PCB.stamped
  split_ifs <;> rfl

/-- **`runProcess`** on a process in transit that has just been chosen. -/
theorem runProcess_outcome (hK : Kept K room adm) (h : Held K s [p] []) (hx : s.heap p = some x)
    (hst : x.state ≠ .B) (hroom : x.pid = -1 → room .pageTable p 0 s.RAM) :
    Outcome (fun s' => Held K s' [] [p] ∧ ∃ m line,
        (x.pid = -1 → ∃ m₀ z, (s.toMem.withPcb p (x.stamped clk)).initializePCB clk p = .ok m₀ ∧
          m₀.heap p = some z ∧ m = m₀.withPcb p { z.started p with state := .R }) ∧
        SameCore (s.toMem.withPcb p (x.dispatched clk p)) m ∧ line.lState ≠ .finish ∧
        s' = { s with
          toMem := m
          shmRT := x.remainingTime
          schedulerLog := s.schedulerLog ++ [line]
          child := s.launchedChild P p x }) NotUnderflow (s.runProcess P clk p) := by
  let s₁ : RRState := { s with
    shmRT := x.remainingTime, toMem := s.toMem.withPcb p (x.stamped clk) }
  have hx₁ : s₁.heap p = some (x.stamped clk) := withPcb_heap_self ..
  have hpid : (x.stamped clk).pid = x.pid := (stamped_own clk x).pid
  have hst₁ : (x.stamped clk).state ≠ .B := fun hB => hst ((stamped_own clk x).state hB)
  have hh₁ : Held K s₁ [p] [] := (h.own hK hx (stamped_own clk x)).of_eq rfl rfl rfl rfl rfl
  have hup : ({ s with shmRT := x.remainingTime } : RRState).update p (fun x =>
      if x.startTime = -1 then
        { x with startTime := clk .start, waitingTime := clk .start - x.arrival }
      else x) = .ok s₁ := update_eq (s := { s with shmRT := x.remainingTime }) hx _
  rw [runProcess, pcb_eq hx, ok_bind, hup, ok_bind, startOrResume, pcb_eq hx₁, ok_bind, hpid]
  split_ifs with hnew
  · refine (startProcess_outcome hK hh₁ hx₁ (hpid.trans hnew) (hroom hnew)).bind ?_
    rintro _ ⟨hh₂, m₀, z, line, hm₀, hz, hcore, hzst, hk, hline, rfl⟩
    have hz₂ := withPcb_heap_self m₀ p (z.started p)
    have hcore₂ : ({ z.started p with state := .R } : PCB).core = (x.dispatched clk p).core := by
      have hs : (z.started p).core = ((x.stamped clk).started p).core :=
        congrArg (PCB.started p) hcore
      rw [PCB.dispatched, if_pos hnew]
      exact hs
    have hsame : SameCore (s.toMem.withPcb p (x.dispatched clk p))
        (m₀.withPcb p { z.started p with state := .R }) := by
      have h₀ : SameCore (s.toMem.withPcb p (x.stamped clk)) m₀ := hk.sameCore
      simpa only [withPcb_withPcb] using h₀.withPcb p hcore₂
    have hheld := setRunning hK hh₂ hz₂ (hzst ▸ hst₁)
    rw [withPcb_withPcb] at hheld
    rw [update_eq hz₂, outcome_ok, withPcb_withPcb]
    refine ⟨hheld, _, line, fun _ => ⟨m₀, z, hm₀, hz, rfl⟩, hsame, hline, ?_⟩
    rw [show s₁.launchedChild P p (x.stamped clk) = s.launchedChild P p x from
      launchedChild_stamped P clk s p x]
  · rw [resumeProcess_eq clk hx₁, ok_bind]
    have hh₂ := hh₁.own hK hx₁ (resumed_own clk (x.stamped clk))
    have hheld := setRunning hK hh₂ (withPcb_heap_self ..) hst₁
    have hchild : (s₁.signal p false).child = s.launchedChild P p x := by
      rw [launchedChild, if_neg hnew]
      rfl
    have hsame : SameCore (s.toMem.withPcb p (x.dispatched clk p))
        (s.toMem.withPcb p { (x.stamped clk).resumed clk with state := .R }) := by
      refine (SameCore.refl s.toMem).withPcb p ?_
      rw [PCB.dispatched, if_neg hnew]
      rfl
    simp only [s₁, withPcb_withPcb] at hheld ⊢
    rw [update_eq (withPcb_heap_self ..), outcome_ok, withPcb_withPcb]
    exact ⟨hheld.of_eq rfl rfl rfl rfl rfl, _, lineOf ((x.stamped clk).resumed clk)
      (clk .resumeLog), fun hc => absurd hc hnew, hsame, nofun, by rw [← hchild]⟩

/-- The first ready process is dispatched. -/
theorem dispatch_outcome (hK : Kept K room adm) (h : Held K s [] []) {rest : List Ptr}
    (hq : s.readyQueue = p :: rest)
    (hroom : ∀ x, s.heap p = some x → x.pid = -1 → room .pageTable p 0 s.RAM) :
    Outcome (fun s' => Held K s' [] s'.currProcess.toList ∧ Dispatches P clk s s') NotUnderflow
      (s.dispatch P clk) := by
  have htake : s.Custody [p] [] → _ := id
  have hmem : p ∈ s.currentPCBs :=
    h.mem_iff.mpr (Or.inr (Or.inr (Or.inl (hq ▸ List.mem_cons_self))))
  obtain ⟨x, hx⟩ := h.toCustody.live hmem
  let s₁ : RRState := { s with readyQueue := rest, currProcess := some p }
  have hc₁ : s₁.Custody [p] [] := by
    refine Custody.of_eq (h.toCustody.takeReady (a := []) hq |>.choose (some p) ?_)
      rfl rfl rfl rfl rfl
    rintro q ⟨⟩
    exact hmem
  have hh₁ : Held K s₁ [p] [] := by
    refine ⟨hc₁, hK.choose h.mem ?_⟩
    rintro q ⟨⟩
    exact hmem
  have hW : x.state ≠ .B := by
    rw [(h.ready p (hq ▸ List.mem_cons_self)).eq hx.2]
    exact nofun
  rw [dispatch, hq, Queue.dequeue_cons, ok_bind]
  refine (runProcess_outcome (s := s₁) hK hh₁ hx.2 hW fun hnew => hroom x hx.2 hnew).mono ?_
  rintro _ ⟨hheld, m, line, hstart, hsame, hline, rfl⟩
  have hcur : m.currProcess = some p := hsame.cur
  refine ⟨?_, .intro hq hx.2 hstart hsame hline⟩
  show Held K _ [] m.currProcess.toList
  rw [hcur]
  exact hheld

/-! ### The scheduling decision -/

/-- The state after the running process has been put back into the ready queue. -/
def stopped (clk : Clk) (s : RRState) (p : Ptr) (x : PCB) : RRState :=
  { s with
    toMem := s.toMem.withPcb p { x.halt s.shmRT (clk .stopped) with state := .W }
    schedulerLog := s.schedulerLog ++
      [lineOf { x with lState := .stop, remainingTime := s.shmRT } (clk .stopLog)]
    quantumsPassed := s.quantumsPassed + 1
    readyQueue := Queue.enqueue s.readyQueue p
    contextSwitchUntil := clk .switchUntil + 1
    child := (s.signal p true).child }

theorem stopCurrent_eq (clk : Clk) (hx : s.heap p = some x) :
    s.stopCurrent clk p = .ok (s.stopped clk p x) := by
  let y : PCB := { x with lState := .stop, remainingTime := s.shmRT }
  let s₁ : RRState := ({ s with toMem := s.toMem.withPcb p y } : RRState).signal p true
  have hy : s₁.heap p = some y := withPcb_heap_self ..
  have hy₂ : ({ s₁ with schedulerLog := s.schedulerLog ++ [lineOf y (clk .stopLog)] } :
      RRState).heap p = some y := hy
  rw [stopCurrent, update_eq hx, ok_bind]
  change (s₁.logData (clk .stopLog) p >>= _) = _
  rw [logData_eq hy, ok_bind]
  change (RRState.update { s₁ with schedulerLog := s.schedulerLog ++ [lineOf y (clk .stopLog)] } p
    _ >>= _) = _
  rw [update_eq hy₂, ok_bind]
  simp only [s₁, stopped, signal, withPcb_withPcb]
  rfl

theorem stopped_held (clk : Clk) (hK : Kept K room adm) (h : Held K s [] [p])
    (hx : s.heap p = some x) :
    Held K (s.stopped clk p x) [] [] := by
  have htake : Held K s [p] [] := ⟨h.toCustody.takeRunning, h.mem⟩
  let y : PCB := { x.halt s.shmRT (clk .stopped) with state := .W }
  have hR : x.state ≠ .B := by
    rw [(h.running p List.mem_cons_self).eq hx]
    exact nofun
  have hown := htake.own hK (y := y) hx
    ⟨rfl, rfl, rfl, rfl, rfl, (fun hB => nomatch hB), fun hB => absurd hB hR, rfl⟩
  exact Held.of_eq ⟨hown.toCustody.putReady ⟨y, withPcb_heap_self .., rfl⟩, hown.mem⟩
    rfl rfl rfl rfl rfl

theorem checkOnce_outcome (hK : Kept K room adm) (h : Held K s l c) (clk : Clk) :
    Outcome (fun s' => ∃ s₁, Held K s₁ l c ∧ Unblocks s s₁ ∧ s' = { s₁ with checked := true })
      NotUnderflow (s.checkOnce clk) := by
  rw [checkOnce]
  split_ifs with hchk
  · exact ⟨s, h, Unblocks.refl s, by rw [← hchk]⟩
  · exact (checkBlockEnd_outcome hK h clk).bind fun s₁ hs₁ => ⟨s₁, hs₁.1, hs₁.2, rfl⟩

/-- The state in which `RR_algo` dispatches, if it does. -/
def beforeDispatch (clk : Clk) (s : RRState) : Except Fault RRState :=
  match s.currProcess with
  | none => .ok s
  | some p => do
    let s ← s.stopCurrent clk p
    s.checkOnce clk

/-- In the state `s`, `RR_algo` dispatches the process `r` for the first time, from the
state `s₁`. -/
structure Launches (clk : Clk) (s s₁ : RRState) (r : Ptr) : Prop where
  before : s.beforeDispatch clk = .ok s₁
  front : s₁.readyQueue.head? = some r
  first : ∃ x, s₁.heap r = some x ∧ x.pid = -1
  preempts : s.currProcess ≠ none → clk .preemptDue ≥ s.nextPreemtionTime ∧
    ¬(s.mayExtend clk = .ok true ∧ clk .extendDue ≥ s.nextPreemtionTime)

/-- **What `RR_algo` does.** -/
inductive Decides (K : Mem → Prop) (P : Params) (clk : Clk) (s : RRState) : RRState → Prop
  /-- The running process goes on, or there is none to run. -/
  | stay (hrun : s.currProcess ≠ none → clk .preemptDue < s.nextPreemtionTime)
      (hidle : s.currProcess = none → s.readyQueue = []) : Decides K P clk s s
  /-- The running process is given another quantum. -/
  | extend {p : Ptr} (hp : s.currProcess = some p)
      (hext : s.mayExtend clk = .ok true ∧ clk .extendDue ≥ s.nextPreemtionTime) :
      Decides K P clk s { s with
      nextPreemtionTime := clk .extendNext + P.quantum
      quantumsPassed := s.quantumsPassed + 1 }
  /-- The running process makes room for the first ready process. -/
  | preempt {p : Ptr} {x : PCB} {s₁ s₂ : RRState} (hp : s.currProcess = some p)
      (hx : s.heap p = some x) (hdue : clk .preemptDue ≥ s.nextPreemtionTime ∧
        ¬(s.mayExtend clk = .ok true ∧ clk .extendDue ≥ s.nextPreemtionTime))
      (hwait : clk .waitStart + 1 ≤ clk .waitEnd) (hu : Unblocks (s.stopped clk p x) s₁)
      (hheld : Held K s₁ [] []) (hbefore : s.beforeDispatch clk = .ok { s₁ with checked := true })
      (hd : Dispatches P clk { s₁ with
        checked := true, nextPreemtionTime := clk .nextPreemption + P.quantum } s₂) :
      Decides K P clk s s₂
  /-- Nothing was running. -/
  | dispatch {s₁ : RRState} (hp : s.currProcess = none) (hd : Dispatches P clk s s₁) :
      Decides K P clk s { s₁ with nextPreemtionTime := clk .nextPreemption + P.quantum }

/-- What `RR_algo` does not touch. -/
theorem Decides.frame (hd : Decides K P clk s s') : ∃ m r b n t u k rt log ch c, s' = { s with
    toMem := m, readyQueue := r, blockQueue := b, scans := c, quantumsPassed := n
    nextPreemtionTime := t, contextSwitchUntil := u, checked := k, shmRT := rt
    schedulerLog := log, child := ch } := by
  cases hd with
  | stay => exact ⟨_, _, _, _, _, _, _, _, _, _, _, rfl⟩
  | extend hp => exact ⟨_, _, _, _, _, _, _, _, _, _, _, rfl⟩
  | preempt hp hx hdue hwait hu hheld hbefore hd =>
    obtain ⟨m, u, b, n, hm, -, rfl⟩ := hu
    cases hd
    exact ⟨_, _, _, _, _, _, _, _, _, _, _, rfl⟩
  | dispatch hp hd =>
    cases hd
    exact ⟨_, _, _, _, _, _, _, _, _, _, _, rfl⟩

theorem mayExtend_outcome (clk : Clk) (s : RRState) :
    Outcome (fun _ => True) NotUnderflow (s.mayExtend clk) := by
  rw [mayExtend]
  cases s.readyQueue with
  | nil => trivial
  | cons p q => exact (pcb_outcome s.toMem p).bind fun x _ => trivial

theorem preempt_outcome (hK : Kept K room adm) (h : Held K s [] [p])
    (hp : s.currProcess = some p) (hdue : clk .preemptDue ≥ s.nextPreemtionTime ∧
      ¬(s.mayExtend clk = .ok true ∧ clk .extendDue ≥ s.nextPreemtionTime))
    (hroom : ∀ s₁ r x, s.beforeDispatch clk = .ok s₁ → s₁.readyQueue.head? = some r →
      s₁.heap r = some x → x.pid = -1 → room .pageTable r 0 s₁.RAM) :
    Outcome (fun s' => Held K s' [] s'.currProcess.toList ∧ Decides K P clk s s') NotUnderflow
      (s.preempt P clk p) := by
  obtain ⟨x, hx⟩ := h.wf.alloc (h.wf.cur hp)
  have hbefore : s.beforeDispatch clk = (s.stopped clk p x).checkOnce clk := by
    simp only [beforeDispatch, hp, stopCurrent_eq clk hx, ok_bind]
  have honce := checkOnce_outcome hK (stopped_held clk hK h hx) clk
  rw [preempt, stopCurrent_eq clk hx, ok_bind]
  cases hs₁ : (s.stopped clk p x).checkOnce clk with
  | error e => exact honce.of_error hs₁
  | ok s₂ =>
    obtain ⟨s₁, hheld, hu, rfl⟩ := honce.of_ok hs₁
    rw [ok_bind, waitNSecs]
    split_ifs with hwait
    · obtain ⟨r, rest, hq⟩ : ∃ r rest, s₁.readyQueue = r :: rest := by
        obtain ⟨m, u, b, n, -, -, he⟩ := hu
        have hr : s₁.readyQueue = Queue.enqueue s.readyQueue p ++ u := by
          rw [he]
          rfl
        cases hs : s₁.readyQueue with
        | nil => simp [hr, Queue.enqueue] at hs
        | cons r rest => exact ⟨r, rest, rfl⟩
      have hheld₂ : Held K { s₁ with
          checked := true, nextPreemtionTime := clk .nextPreemption + P.quantum } [] [] :=
        hheld.of_eq rfl rfl rfl rfl rfl
      rw [ok_bind]
      refine (dispatch_outcome hK hheld₂ hq fun y hy hnew =>
        hroom { s₁ with checked := true } r y (hbefore.trans hs₁) ?_ hy hnew).mono fun s' hs' =>
          ⟨hs'.1, .preempt hp hx hdue hwait hu hheld (hbefore.trans hs₁) hs'.2⟩
      exact congrArg List.head? hq
    · rintro ⟨⟩

/-- **`RR_algo`.** -/
theorem rrAlgo_outcome (hK : Kept K room adm) (h : Held K s [] s.currProcess.toList)
    (hroom : ∀ s₁ r, Launches clk s s₁ r → room .pageTable r 0 s₁.RAM) :
    Outcome (fun s' => Held K s' [] s'.currProcess.toList ∧ Decides K P clk s s') NotUnderflow
      (s.rrAlgo P clk) := by
  cases hp : s.currProcess with
  | none =>
    rw [hp] at h
    simp only [rrAlgo, hp]
    cases hq : s.readyQueue with
    | nil => exact ⟨by rw [hp]; exact h, .stay (fun hne => absurd hp hne) fun _ => hq⟩
    | cons r rest =>
      simp only [Queue.isEmpty_cons, Bool.false_eq_true, if_false]
      refine (dispatch_outcome hK h hq fun x hx hnew => hroom s r ⟨?_, ?_, ⟨x, hx, hnew⟩, ?_⟩).bind
        fun s' hs' => ⟨hs'.1.of_eq rfl rfl rfl rfl rfl, .dispatch hp hs'.2⟩
      · simp only [beforeDispatch, hp]
      · rw [hq, List.head?_cons]
      · exact fun hc => absurd hp hc
  | some p =>
    have hheld : Held K s [] [p] := by rwa [hp] at h
    simp only [rrAlgo, hp]
    cases hext : s.mayExtend clk with
    | error e => exact (mayExtend_outcome clk s).of_error hext
    | ok b =>
      rw [ok_bind]
      split_ifs with hb hdue
      · exact ⟨h.of_eq rfl rfl rfl rfl rfl, .extend hp ⟨by rw [hext, hb.1], hb.2⟩⟩
      · have hdue' : clk .preemptDue ≥ s.nextPreemtionTime ∧
            ¬(s.mayExtend clk = .ok true ∧ clk .extendDue ≥ s.nextPreemtionTime) := by
          refine ⟨hdue, ?_⟩
          rintro ⟨he, hle⟩
          exact hb ⟨Except.ok.inj (hext.symm.trans he), hle⟩
        exact preempt_outcome hK hheld hp hdue' fun s₁ r x hs₁ hr hx hnew =>
          hroom s₁ r ⟨hs₁, hr, ⟨x, hx, hnew⟩, fun _ => hdue'⟩
      · exact ⟨h, .stay (fun _ => not_le.mp hdue) fun hnone => nomatch hp.symm.trans hnone⟩

end RRState

end CpuScheduler
