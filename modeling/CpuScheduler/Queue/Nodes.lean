import CpuScheduler.Structs
import CpuScheduler.Lib.LinkedList

/-!
# The queue in the heap

`data_structures/PCB/Sch_PCB.c` as it is written: a `PCBQueue` with a front, a rear and a
size, and its nodes in a heap that `malloc` and `free` change. Following a null pointer is
`CpuScheduler.Fault.nullDeref`, following a pointer to a node that is not in use is
`CpuScheduler.Fault.useAfterFree`.

What is outside this file's reach is passed to a call.

* `node` is what `malloc` returned; it is `none` for `NULL`, where the call exits.
* `readPCB` is what following a PCB pointer gives. The PCBs are not the queue's, so they may
  change from one call to the next.
* `fuel` bounds the passes of a loop. A loop that runs out of it has not returned
  (`CpuScheduler.Fault.blocked`).
-/

namespace CpuScheduler

/-- A pointer to a node. -/
abbrev Addr := ℕ

/-- `PCBQueue`, and the nodes of the heap. -/
structure PCBQueue where
  front : Option Addr
  rear : Option Addr
  size : ℤ
  nodes : Linked.Heap Addr Ptr

/-- `createQueue`, in a heap with these nodes. -/
def createQueue (nodes : Linked.Heap Addr Ptr) : PCBQueue where
  front := none
  rear := none
  size := 0
  nodes := nodes

namespace PCBQueue

/-! ### The heap -/

/-- Write a node, or give it back. -/
def write (q : PCBQueue) (a : Addr) (n : Option (Linked.Node Addr Ptr)) : PCBQueue :=
  { q with nodes := Function.update q.nodes a n }

/-- Follow a pointer to a node. -/
def deref (q : PCBQueue) : Option Addr → Except Fault (Linked.Node Addr Ptr)
  | none => .error .nullDeref
  | some a =>
    match q.nodes a with
    | none => .error .useAfterFree
    | some n => .ok n

/-- `p->next = next`. -/
def setNext (q : PCBQueue) (p next : Option Addr) : Except Fault PCBQueue :=
  match p with
  | none => .error .nullDeref
  | some a =>
    match q.nodes a with
    | none => .error .useAfterFree
    | some n => .ok (q.write a (some { n with next := next }))

/-- `free`. -/
def free (q : PCBQueue) : Option Addr → Except Fault PCBQueue
  | none => .ok q
  | some a =>
    match q.nodes a with
    | none => .error .useAfterFree
    | some _ => .ok (q.write a none)

section Heap

variable {q : PCBQueue} {a : Addr} {n : Linked.Node Addr Ptr}

@[simp] theorem write_front (m : Option (Linked.Node Addr Ptr)) :
    (q.write a m).front = q.front := rfl

@[simp] theorem write_rear (m : Option (Linked.Node Addr Ptr)) :
    (q.write a m).rear = q.rear := rfl

@[simp] theorem write_size (m : Option (Linked.Node Addr Ptr)) :
    (q.write a m).size = q.size := rfl

@[simp] theorem write_nodes (m : Option (Linked.Node Addr Ptr)) :
    (q.write a m).nodes = Function.update q.nodes a m := rfl

theorem deref_of (h : q.nodes a = some n) : q.deref (some a) = .ok n := by
  rw [deref, h]

theorem setNext_of (h : q.nodes a = some n) (next : Option Addr) :
    q.setNext (some a) next = .ok (q.write a (some { n with next := next })) := by
  rw [setNext, h]

theorem free_of (h : q.nodes a = some n) : q.free (some a) = .ok (q.write a none) := by
  rw [free, h]

end Heap

/-! ### The operations -/

/-- `isEmpty`. -/
def isEmpty (q : PCBQueue) : Bool := q.front.isNone

/-- `enqueue`. -/
def enqueue (q : PCBQueue) (node : Option Addr) (pcb : Ptr) : Except Fault PCBQueue :=
  match node with
  | none => .error .mallocFailed
  | some newNode => do
    let q := q.write newNode (some ⟨pcb, none⟩)
    if q.rear = none then
      .ok { q with front := some newNode, rear := some newNode, size := q.size + 1 }
    else do
      let q ← q.setNext q.rear (some newNode)
      .ok { q with rear := some newNode, size := q.size + 1 }

/-- `dequeue`. -/
def dequeue (q : PCBQueue) : Except Fault (Ptr × PCBQueue) :=
  if q.isEmpty then .error .underflow
  else do
    let temp := q.front
    let n ← q.deref temp
    let q := { q with front := n.next }
    let q := if q.front = none then { q with rear := none } else q
    let q ← q.free temp
    .ok (n.val, { q with size := q.size - 1 })

/-- The loop of `dequeue_rear`: the node in front of the last one. -/
def beforeRear (q : PCBQueue) : ℕ → Option Addr → Except Fault (Option Addr)
  | 0, _ => .error .blocked
  | fuel + 1, trav => do
    let n ← q.deref trav
    if n.next = q.rear then .ok trav else q.beforeRear fuel n.next

/-- `dequeue_rear`. -/
def dequeueRear (q : PCBQueue) (fuel : ℕ) : Except Fault (Option Ptr × PCBQueue) :=
  if q.isEmpty then .ok (none, q)
  else if q.front = q.rear then do
    let n ← q.deref q.front
    let q ← q.free q.front
    .ok (some n.val, { q with front := none, rear := none, size := q.size - 1 })
  else do
    let trav ← q.beforeRear fuel q.front
    let n ← q.deref q.rear
    let q ← q.free q.rear
    let q := { q with rear := trav }
    let q ← q.setNext q.rear none
    .ok (some n.val, { q with size := q.size - 1 })

/-- `peek`. -/
def peek (q : PCBQueue) : Except Fault Ptr :=
  if q.isEmpty then .error .underflow
  else do
    let n ← q.deref q.front
    .ok n.val

/-- `peek_rear`. -/
def peekRear (q : PCBQueue) : Except Fault Ptr :=
  if q.isEmpty then .error .underflow
  else do
    let n ← q.deref q.rear
    .ok n.val

/-- `freeQueue`: the loop, which leaves the queue without nodes. -/
def freeQueue (q : PCBQueue) : ℕ → Except Fault PCBQueue
  | 0 => .error .blocked
  | fuel + 1 =>
    if q.isEmpty then .ok q
    else do
      let r ← q.dequeue
      r.2.freeQueue fuel

variable (readPCB : Ptr → Except Fault PCB)

/-- The test of `enqueue_priority` that puts the new node at the front. -/
def beforeFront (q : PCBQueue) (pcb : Ptr) : Except Fault Bool :=
  if q.front = none then .ok true
  else do
    let x ← readPCB pcb
    let n ← q.deref q.front
    let y ← readPCB n.val
    .ok (decide (x.priority < y.priority))

/-- The loop of `enqueue_priority`: the node that the new one goes behind. -/
def walk (q : PCBQueue) (pcb : Ptr) : ℕ → Option Addr → Except Fault (Option Addr)
  | 0, _ => .error .blocked
  | fuel + 1, curr => do
    let c ← q.deref curr
    if c.next = none then .ok curr
    else do
      let n ← q.deref c.next
      let y ← readPCB n.val
      let x ← readPCB pcb
      if y.priority < x.priority ∨ (y.priority = x.priority ∧ y.arrival ≤ x.arrival) then
        q.walk pcb fuel c.next
      else .ok curr

/-- `enqueue_priority` where the new node becomes the front. -/
def linkFront (q : PCBQueue) (node : Addr) : Except Fault PCBQueue := do
  let q ← q.setNext (some node) q.front
  let q := { q with front := some node }
  let q := if q.rear = none then { q with rear := some node } else q
  .ok { q with size := q.size + 1 }

/-- `enqueue_priority` where the new node goes behind `curr`. -/
def linkBehind (q : PCBQueue) (node : Addr) (curr : Option Addr) : Except Fault PCBQueue := do
  let c ← q.deref curr
  let q ← q.setNext (some node) c.next
  let q ← q.setNext curr (some node)
  let n ← q.deref (some node)
  let q := if n.next = none then { q with rear := some node } else q
  .ok { q with size := q.size + 1 }

/-- `enqueue_priority`. -/
def enqueuePriority (q : PCBQueue) (fuel : ℕ) (node : Option Addr) (pcb : Ptr) :
    Except Fault PCBQueue :=
  match node with
  | none => .error .mallocFailed
  | some node => do
    let q := q.write node (some ⟨pcb, none⟩)
    if ← q.beforeFront readPCB pcb then q.linkFront node
    else do
      let curr ← q.walk readPCB pcb fuel q.front
      q.linkBehind node curr

/-- `dequeue_by_id` where `curr`, which is behind `prev`, is the element. -/
def unlink (q : PCBQueue) (prev curr : Option Addr) : Except Fault (Option Ptr × PCBQueue) := do
  let c ← q.deref curr
  let q ← q.setNext prev c.next
  let q := if curr = q.rear then { q with rear := prev } else q
  let q ← q.free curr
  .ok (some c.val, { q with size := q.size - 1 })

/-- The loop of `dequeue_by_id`: from `curr`, which is behind `prev`. -/
def search (q : PCBQueue) (id : ℤ) :
    ℕ → Option Addr → Option Addr → Except Fault (Option Ptr × PCBQueue)
  | 0, _, _ => .error .blocked
  | fuel + 1, prev, curr =>
    if curr = none then .ok (none, q)
    else do
      let c ← q.deref curr
      let x ← readPCB c.val
      if x.id = id then q.unlink prev curr
      else q.search id fuel curr c.next

/-- `dequeue_by_id`. -/
def dequeueById (q : PCBQueue) (fuel : ℕ) (id : ℤ) : Except Fault (Option Ptr × PCBQueue) :=
  if q.isEmpty then .ok (none, q)
  else do
    let n ← q.deref q.front
    let x ← readPCB n.val
    if x.id = id then do
      let r ← q.dequeue
      .ok (some r.1, r.2)
    else q.search readPCB id fuel q.front n.next

end PCBQueue

end CpuScheduler
