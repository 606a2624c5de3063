import CpuScheduler.Queue.Cells
import CpuScheduler.Lib.Runs

/-!
# The queue in the heap is a list

Any calls on a queue, in any order, from `createQueue` on. The cells of the queue are an
invariant of its runs (`CpuScheduler.PCBQueue.reachable_represents`), so in every state it has
the shape of a list: `next` leads from `front` over `size` different nodes to `NULL`, `rear`
is the last one of them, and no node that was given back is among them
(`CpuScheduler.PCBQueue.Shape`). Every call returns what the same call returns on the list of
the PCBs, and leaves the list that it leaves (`CpuScheduler.PCBQueue.refines_list`); `peek` and
`peek_rear` read its ends (`CpuScheduler.PCBQueue.Represents.peek`,
`CpuScheduler.PCBQueue.Represents.peekRear`). The list operations are those of
`CpuScheduler.Queue`, on which the schedulers are modelled.

The rest of the heap is not touched, and no node is lost
(`CpuScheduler.PCBQueue.reachable_frame`): the nodes of the queue are exactly what `freeQueue`
gives back (`CpuScheduler.PCBQueue.reachable_freeQueue`).
-/

namespace CpuScheduler

open Fallible

/-! ### The calls -/

/-- A call that changes a queue. -/
inductive QueueCall
  | enqueue (pcb : Ptr)
  | enqueuePriority (pcb : Ptr)
  | dequeue
  | dequeueRear
  | dequeueById (id : ℤ)
deriving DecidableEq, Repr

namespace QueueCall

variable (readPCB : Ptr → Except Fault PCB)

/-- The call makes a node. -/
def Allocates : QueueCall → Prop
  | enqueue _ | enqueuePriority _ => True
  | dequeue | dequeueRear | dequeueById _ => False

/-- A call on a list: what it returns (`none` for `NULL`, and where it returns nothing) and
what it leaves. -/
def onList : QueueCall → List Ptr → Except Fault (Option Ptr × List Ptr)
  | enqueue pcb, l => .ok (none, Queue.enqueue l pcb)
  | enqueuePriority pcb, l => do
    let l ← Queue.enqueuePriorityAt readPCB l pcb
    .ok (none, l)
  | dequeue, l => do
    let r ← Queue.dequeue l
    .ok (some r.1, r.2)
  | dequeueRear, l => .ok (Queue.orNull l (Queue.dequeueRear l))
  | dequeueById id, l => do
    let r ← Queue.dequeueById (Queue.idAt readPCB) id l
    .ok (Queue.orNull l r)

/-- A call on the nodes. -/
def onNodes (fuel : ℕ) (node : Option Addr) :
    QueueCall → PCBQueue → Except Fault (Option Ptr × PCBQueue)
  | enqueue pcb, q => do
    let q ← q.enqueue node pcb
    .ok (none, q)
  | enqueuePriority pcb, q => do
    let q ← q.enqueuePriority readPCB fuel node pcb
    .ok (none, q)
  | dequeue, q => do
    let r ← q.dequeue
    .ok (some r.1, r.2)
  | dequeueRear, q => q.dequeueRear fuel
  | dequeueById id, q => q.dequeueById readPCB fuel id

/-- A call that makes a node exits where `malloc` returns `NULL`. -/
theorem onNodes_mallocFailed {call : QueueCall} (h : call.Allocates) (fuel : ℕ) (q : PCBQueue) :
    call.onNodes readPCB fuel none q = .error .mallocFailed := by
  cases call with
  | enqueue pcb => rfl
  | enqueuePriority pcb => rfl
  | dequeue => exact h.elim
  | dequeueRear => exact h.elim
  | dequeueById id => exact h.elim

end QueueCall

namespace PCBQueue

variable {nodes₀ : Linked.Heap Addr Ptr} {q : PCBQueue} {cells : List (Addr × Ptr)}
  {l : List Ptr} {a : Addr} {readPCB : Ptr → Except Fault PCB}

/-- What `malloc` promises: it does not return a node that is in use. -/
def Unused (q : PCBQueue) (node : Option Addr) : Prop := ∀ a ∈ node, q.nodes a = none

/-- **A call on the nodes is the call on the list.** -/
theorem Represents.onNodes {call : QueueCall} {node : Option Addr}
    (h : Represents nodes₀ q l) (readPCB : Ptr → Except Fault PCB) (hnode : q.Unused node)
    (hmalloc : call.Allocates → node ≠ none) (fuel : ℕ) :
    Simulates .blocked (fuel ≤ l.length)
      (fun r s => r.1 = s.1 ∧ Represents nodes₀ r.2 s.2)
      (call.onNodes readPCB fuel node q) (call.onList readPCB l) := by
  obtain ⟨cells, h, rfl⟩ := h
  rw [List.length_map]
  cases call with
  | enqueue pcb =>
    obtain ⟨a, rfl⟩ := Option.ne_none_iff_exists'.mp (hmalloc trivial)
    obtain ⟨t, ht, hcells⟩ := h.enqueue (hnode a rfl) pcb
    rw [QueueCall.onNodes, ht]
    exact .ok ⟨rfl, _, hcells, List.map_append⟩
  | enqueuePriority pcb =>
    obtain ⟨a, rfl⟩ := Option.ne_none_iff_exists'.mp (hmalloc trivial)
    exact (h.enqueuePriority (hnode a rfl) fuel).bind fun t l ht => .ok ⟨rfl, ht⟩
  | dequeue =>
    cases cells with
    | nil =>
      rw [QueueCall.onNodes, h.dequeue_nil]
      exact .error Fault.underflow
    | cons c cells =>
      obtain ⟨t, ht, hcells⟩ := h.dequeue
      rw [QueueCall.onNodes, ht]
      exact .ok ⟨rfl, cells, hcells, rfl⟩
  | dequeueRear =>
    rw [QueueCall.onNodes, QueueCall.onList]
    rcases List.eq_nil_or_concat' cells with rfl | ⟨cells, d, rfl⟩
    · rw [PCBQueue.dequeueRear, if_pos h.isEmpty_nil]
      exact .ok ⟨rfl, [], h, rfl⟩
    · rw [List.map_append, List.map_singleton, Queue.dequeueRear_concat]
      rcases h.dequeueRear fuel with ⟨t, ht, hcells⟩ | ⟨hle, hb⟩
      · rw [ht]
        exact .ok ⟨rfl, cells, hcells, rfl⟩
      · rw [hb]
        refine .stuck ?_ _
        rw [List.length_append]
        omega
  | dequeueById id =>
    refine (h.dequeueById fuel).bind_right ?_
    rintro r s ⟨hr, hs⟩
    exact ⟨hr, hs⟩

/-- `peek` reads the first element of the list. -/
theorem Represents.peek (h : Represents nodes₀ q l) : q.peek = Queue.peek l := by
  obtain ⟨cells, h, rfl⟩ := h
  cases cells with
  | nil => rw [PCBQueue.peek, if_pos h.isEmpty_nil, List.map_nil, Queue.peek]
  | cons c cells => rw [h.peek, List.map_cons, Queue.peek]

/-- `peek_rear` reads the last one. -/
theorem Represents.peekRear {p : Ptr} (h : Represents nodes₀ q (l ++ [p])) :
    q.peekRear = .ok p := by
  obtain ⟨cells, h, hl⟩ := h
  rcases List.eq_nil_or_concat' cells with rfl | ⟨cells, d, rfl⟩
  · simp at hl
  · rw [List.map_append, List.map_singleton] at hl
    have hd := List.append_inj_right' hl rfl
    rw [h.peekRear, (List.cons.inj hd).1]

/-! ### Runs -/

/-- The queue that `createQueue` makes, and any calls on it, in any order. The PCBs may change
from call to call. -/
def system (nodes₀ : Linked.Heap Addr Ptr) : TransitionSystem PCBQueue where
  init q := q = createQueue nodes₀
  step q t := ∃ readPCB fuel node call r, q.Unused node ∧
    QueueCall.onNodes readPCB fuel node call q = .ok (r, t)

/-- A call in an explicit run. -/
def play (readPCB : Ptr → Except Fault PCB) (fuel : ℕ) (q : PCBQueue) :
    Option Addr × QueueCall → Option PCBQueue
  | (node, call) =>
    if ∀ a ∈ node, q.nodes a = none then
      (call.onNodes readPCB fuel node q).toOption.map Prod.snd
    else none

theorem play_step {fuel : ℕ} (q : PCBQueue) (e : Option Addr × QueueCall) (t : PCBQueue)
    (h : play readPCB fuel q e = some t) : (system nodes₀).step q t := by
  obtain ⟨node, call⟩ := e
  rw [play] at h
  by_cases hnode : ∀ a ∈ node, q.nodes a = none
  · rw [if_pos hnode] at h
    obtain ⟨⟨r, t'⟩, hr, rfl⟩ := Option.map_eq_some_iff.mp h
    exact ⟨readPCB, fuel, node, call, r, hnode, toOption_eq_some.mp hr⟩
  · rw [if_neg hnode] at h
    exact nomatch h

/-- **Every queue is a list.** -/
theorem reachable_represents (h : (system nodes₀).Reachable q) :
    ∃ l, Represents nodes₀ q l := by
  refine h.invariant (P := fun q => ∃ l, Represents nodes₀ q l) ?_ ?_
  · rintro _ rfl
    exact ⟨[], [], holds_createQueue nodes₀, rfl⟩
  · rintro q t ⟨l, hl⟩ ⟨readPCB, fuel, node, call, r, hnode, hcall⟩
    have hmalloc : call.Allocates → node ≠ none := by
      rintro ha rfl
      rw [QueueCall.onNodes_mallocFailed readPCB ha] at hcall
      exact nomatch hcall
    obtain ⟨s, -, -, hs⟩ := (Represents.onNodes hl readPCB hnode hmalloc fuel).of_ok hcall
    exact ⟨s.2, hs⟩

/-- The shape of a queue. -/
structure Shape (q : PCBQueue) (cells : List (Addr × Ptr)) : Prop where
  /-- Following `next` from `front` meets these cells, and ends in `NULL`. -/
  visits : Linked.Path q.nodes q.front cells none
  /-- They are different nodes. -/
  distinct : (cells.map Prod.fst).Nodup
  /-- There are `size` of them. -/
  size : q.size = cells.length
  /-- `rear` is the last one. -/
  rear : q.rear = cells.getLast?.map Prod.fst
  front_iff_rear : q.front = none ↔ q.rear = none
  front_iff_size : q.front = none ↔ q.size = 0
  /-- No node that was given back is reachable. -/
  live : ∀ a, Linked.Reaches q.nodes q.front a → q.nodes a ≠ none

/-- Every call does to the nodes what it does to the list, and returns the same. -/
def Refines (q : PCBQueue) (cells : List (Addr × Ptr)) : Prop :=
  ∀ (readPCB : Ptr → Except Fault PCB) (fuel : ℕ) (node : Option Addr) (call : QueueCall),
    q.Unused node → (call.Allocates → node ≠ none) → q.size < fuel →
    (∀ r l, call.onList readPCB (cells.map Prod.snd) = .ok (r, l) →
      ∃ t cells', call.onNodes readPCB fuel node q = .ok (r, t) ∧ Shape t cells' ∧
        cells'.map Prod.snd = l) ∧
    ∀ e, call.onList readPCB (cells.map Prod.snd) = .error e →
      call.onNodes readPCB fuel node q = .error e

theorem Holds.shape (h : Holds nodes₀ q cells) : Shape q cells where
  visits := h.chain.path
  distinct := h.chain.path.nodup
  size := h.size
  rear := h.rear
  front_iff_rear := by
    cases cells with
    | nil => exact iff_of_true h.front_nil h.rear
    | cons c cells =>
      rw [h.front_cons, h.rear]
      simp
  front_iff_size := by
    cases cells with
    | nil => exact iff_of_true h.front_nil h.size
    | cons c cells =>
      rw [h.front_cons, h.size]
      simp
      omega
  live := by
    intro a ha hnone
    exact (h.chain.of_unused hnone).1 (h.chain.path.reaches_iff.mp ha)

/-- What is not reachable is as it was before the queue was made: nothing is lost, and
nothing else is written. -/
theorem reachable_frame (h : (system nodes₀).Reachable q)
    (ha : ¬Linked.Reaches q.nodes q.front a) : q.nodes a = nodes₀ a := by
  obtain ⟨l, cells, h, -⟩ := reachable_represents h
  exact h.chain.frame a fun hmem => ha (h.chain.path.reaches_iff.mpr hmem)

/-- `freeQueue` leaves the heap as it was before the queue was made. -/
theorem reachable_freeQueue {fuel : ℕ} (h : (system nodes₀).Reachable q)
    (hfuel : q.size < fuel) : ∃ t, q.freeQueue fuel = .ok t ∧ t.nodes = nodes₀ := by
  obtain ⟨l, cells, h, -⟩ := reachable_represents h
  rw [h.size] at hfuel
  exact h.freeQueue (by omega)

/-- **The queue refines a list**: in every state that calls lead to, it has the shape of a
list, and a call acts on that list. -/
theorem refines_list (h : (system nodes₀).Reachable q) :
    ∃ cells, Shape q cells ∧ Refines q cells := by
  obtain ⟨l, cells, h, rfl⟩ := reachable_represents h
  refine ⟨cells, h.shape, fun readPCB fuel node call hnode hmalloc hfuel => ?_⟩
  have hcall := Represents.onNodes ⟨cells, h, rfl⟩ readPCB hnode hmalloc fuel
  have henough : ¬fuel ≤ (cells.map Prod.snd).length := by
    rw [h.size] at hfuel
    rw [List.length_map]
    omega
  constructor
  · intro r l hl
    obtain ⟨⟨r', t⟩, ht, rfl, cells', hcells', rfl⟩ := hcall.ok_of_ok henough hl
    exact ⟨t, cells', ht, hcells'.shape, rfl⟩
  · intro e he
    exact hcall.error_of_error henough he

/-- The PCBs of `pcb_test.c`, at the pointers 1, 2 and 3. -/
def testPCBs : Ptr → Except Fault PCB
  | 1 => .ok { createPCB (soleProcess 0) with id := 1, arrival := 0, priority := 3 }
  | 2 => .ok { createPCB (soleProcess 0) with id := 2, arrival := 0, priority := 1 }
  | 3 => .ok { createPCB (soleProcess 0) with id := 3, arrival := 0, priority := 2 }
  | _ => .error .nullDeref

/-- The queue of `pcb_test.c` after the three calls of `enqueue_priority`. -/
def testQueue : Option PCBQueue :=
  TransitionSystem.playAll (play testPCBs 4) (createQueue fun _ => none)
    [(some 1, .enqueuePriority 1), (some 2, .enqueuePriority 2), (some 3, .enqueuePriority 3)]

/-- `pcb_test.c`: there are three nodes, and the PCB of the smallest priority is in front. -/
theorem refines_list_test : ∃ q, testQueue = some q ∧ q.size = 3 ∧ q.peek = .ok 2 ∧
    ∃ cells, Shape q cells ∧ Refines q cells := by
  have hrun : testQueue.map (fun q => (q.size, q.peek)) = some (3, .ok 2) := by rfl
  obtain ⟨q, hq, hval⟩ := Option.map_eq_some_iff.mp hrun
  obtain ⟨hsize, hpeek⟩ := Prod.mk.inj hval
  have hreach : (system fun _ => none).Reachable q :=
    TransitionSystem.Reachable.playAll play_step (.init rfl) hq
  exact ⟨q, hq, hsize, hpeek, refines_list hreach⟩

end PCBQueue

end CpuScheduler
