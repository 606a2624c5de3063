import CpuScheduler.Queue.Fifo
import CpuScheduler.RR.Mail

/-!
# The requests on their heap

`handleRequests` and `checkReqs` once more, with the queue of the requests as it is: nodes that
hold pointers to requests (`CpuScheduler.ReqQueue`), and the requests, which `handleRequests`
allocates and `checkReqs` frees. The model of the scheduler keeps a list of requests instead
(`CpuScheduler.RRState.requests`), and this is what it may do: a call on the heap fails exactly
where the call on the list does, and leaves the same state and the requests of that list in the
heap (`CpuScheduler.RRState.handleOnHeap_simulates`). So the queue is this list in every run, and
when it is empty, every request and every node has been given back
(`CpuScheduler.World.reachable_requests`).
-/

namespace CpuScheduler

open Fallible

/-- The queue of the requests, and the requests that are allocated. -/
structure ReqHeap where
  queue : ReqQueue
  reqs : Addr → Option Request

namespace ReqHeap

/-- Follow a pointer to a request. -/
def deref (h : ReqHeap) (a : Addr) : Except Fault Request :=
  match h.reqs a with
  | none => .error .useAfterFree
  | some req => .ok req

/-- `malloc` of a request, and what is written to it. -/
def write (h : ReqHeap) (a : Addr) (req : Request) : ReqHeap :=
  { h with reqs := Function.update h.reqs a (some req) }

/-- `free` of a request. -/
def free (h : ReqHeap) (a : Addr) : Except Fault ReqHeap :=
  match h.reqs a with
  | none => .error .useAfterFree
  | some _ => .ok { h with reqs := Function.update h.reqs a none }

end ReqHeap

namespace RRState

open ReqHeap ReqQueue

/-! ### The calls -/

/-- The message `handleRequests` takes from the queue of the messages; `req` and `node` are what
`malloc` returns. Without a message, the request is freed at once. -/
def fetchOnHeap (clk : Clk) (req node : Option Addr) (s : RRState) (h : ReqHeap) (id : ℤ) :
    Except Fault (RRState × ReqHeap) :=
  match req with
  | none => .error .mallocFailed
  | some a =>
    match MsgQueue.rcv Request.mtype id s.reqMsgq with
    | none => .ok (s, h)
    | some (m, rest) => do
      let h := h.write a { m with tick := clk .reqTick }
      let queue ← enqueueReq h.queue node a
      .ok ({ s with reqMsgq := rest }, { h with queue := queue })

/-- The request at the front of the queue, once its owner is known. -/
def serveOnHeap (clk : Clk) (s : RRState) (h : ReqHeap) (pendingReq : Request) (owner : Ptr) :
    Except Fault (RRState × ReqHeap) := do
  let page := (parseHexaAddress pendingReq.address).page
  let (result, m) ← s.check owner page pendingReq.operation
  let s := { s with toMem := m, checks := s.checks ++ [(owner, pendingReq, result)] }
  if pendingReq.tick ≤ clk .reqDue then do
    let (a, queue) ← dequeueReq h.queue
    let h := { h with queue := queue }
    match result with
    | .hit | .invalid => do
      let h ← h.free a
      .ok (s, h)
    | .miss => do
      let currReq ← h.deref a
      let s ← s.handleMiss clk owner page currReq
      let h ← h.free a
      .ok (s, h)
  else .ok (s, h)

/-- `checkReqs`. -/
def checkOnHeap (clk : Clk) (s : RRState) (h : ReqHeap) : Except Fault (RRState × ReqHeap) :=
  if isEmptyReq h.queue then .ok (s, h)
  else do
    let a ← peekReq h.queue
    let pendingReq ← h.deref a
    let requestOwner ← s.getProcess pendingReq.mtype
    match requestOwner with
    | none => .ok (s, h)
    | some owner => s.serveOnHeap clk h pendingReq owner

/-- `handleRequests`. -/
def handleOnHeap (clk : Clk) (req node : Option Addr) (s : RRState) (h : ReqHeap) :
    Except Fault (RRState × ReqHeap) :=
  match s.currProcess with
  | none => .ok (s, h)
  | some p => do
    let x ← s.pcb p
    let r ← s.fetchOnHeap clk req node h x.id
    r.1.checkOnHeap clk r.2

end RRState

/-! ### What is in the heap -/

namespace ReqHeap

variable {nodes₀ : Linked.Heap Addr Addr} {reqs₀ : Addr → Option Request} {h : ReqHeap}
  {l : List Request} {req : Request} {a c : Addr}

/-- The queue holds the pointers `as`, which lead to the requests of `l`; otherwise the heap is as
it was before. -/
structure Holds (nodes₀ : Linked.Heap Addr Addr) (reqs₀ : Addr → Option Request) (h : ReqHeap)
    (l : List Request) (as : List Addr) : Prop where
  queue : Fifo.Represents nodes₀ h.queue as
  contents : as.map h.reqs = l.map some
  distinct : as.Nodup
  /-- The requests have been allocated since, -/
  unused : ∀ a ∈ as, reqs₀ a = none
  /-- and nothing else has. -/
  frame : ∀ a ∉ as, h.reqs a = reqs₀ a

/-- The heap holds these requests. -/
def Represents (nodes₀ : Linked.Heap Addr Addr) (reqs₀ : Addr → Option Request) (h : ReqHeap)
    (l : List Request) : Prop :=
  ∃ as, Holds nodes₀ reqs₀ h l as

/-- What `createReqQueue` makes holds no requests. -/
theorem represents_create (nodes₀ : Linked.Heap Addr Addr) (reqs₀ : Addr → Option Request) :
    Represents nodes₀ reqs₀ ⟨ReqQueue.createReqQueue nodes₀, reqs₀⟩ [] :=
  ⟨[], Fifo.represents_create nodes₀, rfl, List.nodup_nil, nofun, fun _ _ => rfl⟩

theorem deref_of (ha : h.reqs a = some req) : h.deref a = .ok req := by
  rw [deref, ha]

theorem free_of (ha : h.reqs a = some req) :
    h.free a = .ok { h with reqs := Function.update h.reqs a none } := by
  rw [free, ha]

/-- **No node is lost**: an empty queue leaves the heap as it was. -/
theorem Represents.nodes_eq (hr : Represents nodes₀ reqs₀ h []) : h.queue.nodes = nodes₀ := by
  obtain ⟨as, ⟨cells, hq, hcells⟩, hmap, -⟩ := hr
  obtain rfl : as = [] := List.map_eq_nil_iff.mp hmap
  obtain rfl : cells = [] := List.map_eq_nil_iff.mp hcells
  funext a
  exact hq.chain.frame a List.not_mem_nil

/-- **No request is lost** either. -/
theorem Represents.reqs_eq (hr : Represents nodes₀ reqs₀ h []) : h.reqs = reqs₀ := by
  obtain ⟨as, -, hmap, -, -, hframe⟩ := hr
  obtain rfl : as = [] := List.map_eq_nil_iff.mp hmap
  funext a
  exact hframe a List.not_mem_nil

theorem Represents.isEmpty_iff (hr : Represents nodes₀ reqs₀ h l) :
    ReqQueue.isEmptyReq h.queue = true ↔ l = [] := by
  obtain ⟨as, hq, hmap, -⟩ := hr
  rw [ReqQueue.isEmptyReq, hq.isEmpty_iff, ← List.map_eq_nil_iff (f := h.reqs), hmap,
    List.map_eq_nil_iff]

/-- A request that has been allocated goes in at the end. -/
theorem Represents.enqueue (hr : Represents nodes₀ reqs₀ h l) (ha : h.reqs a = none)
    (hc : h.queue.nodes c = none) (req : Request) :
    ∃ q, ReqQueue.enqueueReq (h.write a req).queue (some c) a = .ok q ∧
      Represents nodes₀ reqs₀ { h.write a req with queue := q } (l ++ [req]) := by
  obtain ⟨as, hq, hmap, hnodup, hfree, hframe⟩ := hr
  obtain ⟨q, hcall, hq'⟩ := hq.enqueue hc a
  have hnot : a ∉ as := by
    intro hmem
    have hsome : h.reqs a ∈ l.map some := hmap ▸ List.mem_map_of_mem hmem
    rw [ha] at hsome
    simp at hsome
  refine ⟨q, hcall, as ++ [a], hq', ?_, ?_, ?_, ?_⟩
  · have hkept : as.map (Function.update h.reqs a (some req)) = as.map h.reqs := by
      refine List.map_congr_left fun b hb => Function.update_of_ne ?_ ..
      rintro rfl
      exact hnot hb
    show (as ++ [a]).map (Function.update h.reqs a (some req)) = _
    rw [List.map_append, hkept, hmap, List.map_singleton, Function.update_self, List.map_append,
      List.map_singleton]
  · exact List.nodup_append.mpr ⟨hnodup, List.nodup_singleton a, fun b hb d hd he =>
      hnot (List.mem_singleton.mp hd ▸ he ▸ hb)⟩
  · intro b hb
    rcases List.mem_append.mp hb with hb | hb
    · exact hfree b hb
    · rw [List.mem_singleton.mp hb, ← hframe a hnot]
      exact ha
  · intro b hb
    rw [List.mem_append, not_or, List.mem_singleton] at hb
    exact (Function.update_of_ne hb.2 ..).trans (hframe b hb.1)

/-- The first request is read, -/
theorem Represents.peek (hr : Represents nodes₀ reqs₀ h (req :: l)) :
    ∃ a, ReqQueue.peekReq h.queue = .ok a ∧ h.deref a = .ok req := by
  obtain ⟨as, hq, hmap, -⟩ := hr
  obtain ⟨a, as, rfl, ha, -⟩ := List.map_eq_cons_iff.mp hmap
  exact ⟨a, hq.peek, deref_of ha⟩

/-- and taken out of the queue; it is there until it is freed, once. -/
theorem Represents.dequeue (hr : Represents nodes₀ reqs₀ h (req :: l)) :
    ∃ a q h', ReqQueue.dequeueReq h.queue = .ok (a, q) ∧
      ({ h with queue := q } : ReqHeap).deref a = .ok req ∧
      ({ h with queue := q } : ReqHeap).free a = .ok h' ∧ Represents nodes₀ reqs₀ h' l := by
  obtain ⟨as, hq, hmap, hnodup, hfree, hframe⟩ := hr
  obtain ⟨a, as, rfl, ha, hmap⟩ := List.map_eq_cons_iff.mp hmap
  obtain ⟨q, hcall, hq'⟩ := hq.dequeue
  obtain ⟨hnot, hnodup⟩ := List.nodup_cons.mp hnodup
  refine ⟨a, q, _, hcall, deref_of ha, free_of ha, as, hq', ?_, hnodup, ?_, ?_⟩
  · rw [← hmap]
    refine List.map_congr_left fun b hb => Function.update_of_ne ?_ ..
    rintro rfl
    exact hnot hb
  · exact fun b hb => hfree b (List.mem_cons_of_mem a hb)
  · intro b hb
    by_cases hba : b = a
    · rw [hba, hfree a List.mem_cons_self]
      exact Function.update_self ..
    · exact (Function.update_of_ne hba ..).trans (hframe b fun hmem =>
        hb ((List.mem_cons.mp hmem).resolve_left hba))

end ReqHeap

namespace RRState

variable {nodes₀ : Linked.Heap Addr Addr} {reqs₀ : Addr → Option Request} {h : ReqHeap}
  {l : List Request} {s : RRState} {clk : Clk} {a c : Addr} {owner : Ptr} {req : Request}

/-! ### The rest of the state -/

/-- Two computations that do the same, but for the requests in the state: these are `l` after the
second one. -/
abbrev Alike (l : List Request) : Except Fault RRState → Except Fault RRState → Prop :=
  Simulates .blocked False fun s t => t = { s with requests := l }

theorem update_alike (l : List Request) (s : RRState) (p : Ptr) (g : PCB → PCB) :
    Alike l (s.update p g) (({ s with requests := l } : RRState).update p g) :=
  Simulates.bind_self fun _ => .ok rfl

theorem logData_alike (l : List Request) (s : RRState) (t : ℤ) (p : Ptr) :
    Alike l (s.logData t p) (({ s with requests := l } : RRState).logData t p) :=
  Simulates.bind_self fun _ => .ok rfl

theorem blockCurrent_alike (l : List Request) (clk : Clk) (s : RRState) (p : Ptr) :
    Alike l (s.blockCurrent clk p) (({ s with requests := l } : RRState).blockCurrent clk p) := by
  refine (update_alike l s p _).bind ?_
  rintro s₁ _ rfl
  refine (logData_alike l s₁ _ p).bind ?_
  rintro s₂ _ rfl
  refine (update_alike l s₂ p _).bind ?_
  rintro s₃ _ rfl
  exact .ok rfl

theorem switchFrom_alike (l : List Request) (clk : Clk) (s : RRState) (p : Ptr) :
    Alike l (s.switchFrom clk p) (({ s with requests := l } : RRState).switchFrom clk p) := by
  refine Simulates.bind_self fun x => ?_
  by_cases hpid : x.pid > 0
  · simp only [if_pos hpid]
    exact .ok rfl
  · simp only [if_neg hpid]
    exact .ok rfl

theorem resolveMiss_alike (l : List Request) (clk : Clk) (s : RRState) (p : Ptr) (page : ℤ)
    (req : Request) : Alike l (s.resolveMiss clk p page req)
      (({ s with requests := l } : RRState).resolveMiss clk p page req) := by
  refine Simulates.bind_self fun x => ?_
  have hfault : Alike l (s.onMem (s.faultHandler clk x.id page .demand req.address req.operation))
      (({ s with requests := l } : RRState).onMem
        (s.faultHandler clk x.id page .demand req.address req.operation)) :=
    Simulates.bind_self fun _ => .ok rfl
  refine hfault.bind ?_
  rintro s₁ _ rfl
  by_cases hcur : s₁.currProcess = some p
  · simp only [if_pos hcur]
    exact switchFrom_alike l clk s₁ p
  · simp only [if_neg hcur]
    exact .ok rfl

theorem handleMiss_alike (l : List Request) (clk : Clk) (s : RRState) (p : Ptr) (page : ℤ)
    (req : Request) : Alike l (s.handleMiss clk p page req)
      (({ s with requests := l } : RRState).handleMiss clk p page req) := by
  by_cases hcur : s.currProcess = some p
  · have hcur' : ({ s with requests := l } : RRState).currProcess = some p := hcur
    rw [handleMiss, handleMiss, if_pos hcur, if_pos hcur']
    refine (blockCurrent_alike l clk s p).bind ?_
    rintro s₁ _ rfl
    exact resolveMiss_alike l clk s₁ p page req
  · have hcur' : ({ s with requests := l } : RRState).currProcess ≠ some p := hcur
    rw [handleMiss, handleMiss, if_neg hcur, if_neg hcur']
    have hready : Simulates (.blocked : Fault) False (fun (r t : Option (Ptr × RRState)) =>
        t = r.map fun x => (x.1, { x.2 with requests := l })) (s.blockReady p)
        (({ s with requests := l } : RRState).blockReady p) := by
      refine Simulates.bind_self fun x => Simulates.bind_self fun r => ?_
      cases r with
      | none => exact .ok rfl
      | some r =>
        refine (update_alike l { s with readyQueue := r.2 } r.1 _).bind ?_
        rintro s₁ _ rfl
        exact .ok rfl
    refine hready.bind ?_
    rintro r _ rfl
    cases r with
    | none => exact .ok rfl
    | some r => exact resolveMiss_alike l clk r.2 r.1 page req

/-! ### The simulation -/

/-- What a call leaves on the heap, and what it leaves on the list. -/
def OnHeap (nodes₀ : Linked.Heap Addr Addr) (reqs₀ : Addr → Option Request)
    (r : RRState × ReqHeap) (t : RRState) : Prop :=
  t = { r.1 with requests := t.requests } ∧ r.2.Represents nodes₀ reqs₀ t.requests

theorem serveOnHeap_simulates (hr : h.Represents nodes₀ reqs₀ (req :: l)) :
    Simulates .blocked False (OnHeap nodes₀ reqs₀) (s.serveOnHeap clk h req owner)
      (({ s with requests := req :: l } : RRState).serveRequest clk req owner) := by
  refine Simulates.bind_self fun r => ?_
  obtain ⟨res, m⟩ := r
  dsimp only
  by_cases hdue : req.tick ≤ clk .reqDue
  · obtain ⟨a, q, h', hcall, hreq, hfree, hrest⟩ := hr.dequeue
    rw [if_pos hdue, if_pos hdue, hcall, Queue.dequeue_cons, ok_bind, ok_bind]
    dsimp only
    cases res with
    | hit | invalid =>
      rw [hfree]
      exact .ok ⟨rfl, hrest⟩
    | miss =>
      simp only [hreq, hfree, ok_bind]
      have hmiss := handleMiss_alike l clk
        { s with toMem := m, checks := s.checks ++ [(owner, req, .miss)] } owner
        (parseHexaAddress req.address).page req
      refine hmiss.bind_left ?_
      rintro s₁ _ rfl
      exact ⟨rfl, hrest⟩
  · rw [if_neg hdue, if_neg hdue]
    exact .ok ⟨rfl, hr⟩

theorem checkOnHeap_simulates (hr : h.Represents nodes₀ reqs₀ l) :
    Simulates .blocked False (OnHeap nodes₀ reqs₀) (s.checkOnHeap clk h)
      (({ s with requests := l } : RRState).checkReqs clk) := by
  cases l with
  | nil =>
    rw [checkOnHeap, if_pos (hr.isEmpty_iff.mpr rfl)]
    exact .ok ⟨rfl, hr⟩
  | cons req l =>
    obtain ⟨a, hpeek, hread⟩ := hr.peek
    have hne : ¬ReqQueue.isEmptyReq h.queue = true := fun he =>
      List.cons_ne_nil req l (hr.isEmpty_iff.mp he)
    rw [checkOnHeap, if_neg hne, hpeek, ok_bind, hread, ok_bind]
    refine Simulates.bind_self fun owner => ?_
    cases owner with
    | none => exact .ok ⟨rfl, hr⟩
    | some owner => exact serveOnHeap_simulates hr

/-- **A call on the heap is the call on the list**, when `malloc` returns what is not in use. -/
theorem handleOnHeap_simulates (hr : h.Represents nodes₀ reqs₀ s.requests)
    (ha : h.reqs a = none) (hc : h.queue.nodes c = none) :
    Simulates .blocked False (OnHeap nodes₀ reqs₀)
      (s.handleOnHeap clk (some a) (some c) h) (s.handleRequests clk) := by
  rw [handleOnHeap, handleRequests]
  cases s.currProcess with
  | none => exact .ok ⟨rfl, hr⟩
  | some p =>
    refine Simulates.bind_self fun x => ?_
    rw [fetchOnHeap, fetchRequest]
    cases MsgQueue.rcv Request.mtype x.id s.reqMsgq with
    | none => exact checkOnHeap_simulates hr
    | some r =>
      obtain ⟨m, rest⟩ := r
      obtain ⟨q, hcall, hr'⟩ := hr.enqueue ha hc { m with tick := clk .reqTick }
      dsimp only
      rw [hcall, ok_bind, ok_bind]
      exact checkOnHeap_simulates (s := { s with reqMsgq := rest }) hr'

end RRState

namespace World

open RRState

variable {P : Params} {nodes₀ : Linked.Heap Addr Addr} {reqs₀ : Addr → Option Request}

/-! ### Runs -/

/-- A state of the system, and the heap of its requests. -/
structure Requesting where
  world : World
  reqs : ReqHeap

/-- What a step does to the heap: `handleRequests` is called on it, with what `malloc` returns, and
nothing else touches it. -/
def Requesting.Next (a : Requesting) (h : ReqHeap) : Event → Prop
  | .sched clk _ =>
    if a.world.rr.pc = .requests then
      ∃ req node s, a.reqs.reqs req = none ∧ a.reqs.queue.nodes node = none ∧
        a.world.rr.handleOnHeap clk (some req) (some node) a.reqs = .ok (s, h)
    else h = a.reqs
  | _ => h = a.reqs

/-- The system with the heap of its requests, which is `reqs₀` and has the nodes `nodes₀` when the
queue is made. -/
def requesting (P : Params) (nodes₀ : Linked.Heap Addr Addr) (reqs₀ : Addr → Option Request) :
    TransitionSystem Requesting where
  init a := (system P).init a.world ∧ a.reqs = ⟨ReqQueue.createReqQueue nodes₀, reqs₀⟩
  step a b := ∃ e, Step P e a.world b.world ∧ a.Next b.reqs e

theorem requesting_reachable {a : Requesting} (h : (requesting P nodes₀ reqs₀).Reachable a) :
    (system P).Reachable a.world := by
  refine TransitionSystem.Reachable.map (T := system P) (f := Requesting.world) ?_ ?_ h
  · rintro a ⟨ha, -⟩
    exact ha
  · rintro a b - ⟨e, hst, -⟩
    exact Or.inl ⟨e, hst⟩

/-- **The queue of the requests is a list in every run.** When it is empty, every request and every
node that has been allocated for it has been freed. -/
theorem reachable_requests {a : Requesting} (h : (requesting P nodes₀ reqs₀).Reachable a) :
    a.reqs.Represents nodes₀ reqs₀ a.world.rr.requests ∧
      (a.world.rr.requests = [] → a.reqs.queue.nodes = nodes₀ ∧ a.reqs.reqs = reqs₀) := by
  suffices hr : a.reqs.Represents nodes₀ reqs₀ a.world.rr.requests by
    refine ⟨hr, fun hnil => ?_⟩
    rw [hnil] at hr
    exact ⟨hr.nodes_eq, hr.reqs_eq⟩
  induction h with
  | @init a ha =>
    obtain ⟨⟨l, t, -, -, -, hw⟩, hreqs⟩ := ha
    rw [hw, hreqs]
    exact ReqHeap.represents_create nodes₀ reqs₀
  | @step a b ha hst ih =>
    obtain ⟨e, hst, hnext⟩ := hst
    have hi := reachable_inv (requesting_reachable ha)
    generalize hw : b.world = w' at hst
    cases hst with
    | @sched _ clk s t hclk hs =>
      by_cases hpc : a.world.rr.pc = .requests
      · rw [Requesting.Next, if_pos hpc] at hnext
        obtain ⟨req, node, s₁, hreq, hnode, hcall⟩ := hnext
        obtain ⟨s₂, hlist, -, hr⟩ := (handleOnHeap_simulates ih hreq hnode).of_ok hcall
        have hphase : (a.world.rr.handleRequests clk >>= fun s => .ok { s with pc := .blockEnd }) =
            .ok s := by
          rw [phase, hpc] at hs
          exact hs
        rw [hlist, ok_bind] at hphase
        obtain rfl := Except.ok.inj hphase
        exact hr
      · rw [Requesting.Next, if_neg hpc] at hnext
        rw [hnext, ((hi.turn hs).mail hpc).1]
        exact ih
    | child hs =>
      rw [show b.reqs = a.reqs from hnext]
      obtain ⟨c, -, -, -, ⟨-, rfl⟩ | ⟨-, -, rfl⟩⟩ := childStep_cases hs <;> exact ih
    | _ =>
      rw [show b.reqs = a.reqs from hnext]
      exact ih

end World

end CpuScheduler
