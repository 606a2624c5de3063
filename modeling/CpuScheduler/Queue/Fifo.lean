import CpuScheduler.Queue.Nodes
import CpuScheduler.Lib.Fallible
import Mathlib.Tactic

/-!
# The queues that are first in, first out

The queue of the generator (`process_generator_functions.c`) and the queue of the requests
(`data_structures/REQ/requests.c`) are the same code for two types of elements: the one holds
the processes themselves, the other one pointers to requests. Both are read off
`CpuScheduler.Fifo`, in a heap like that of `CpuScheduler.PCBQueue`.

| function | cells before | cells after | |
|---|---|---|---|
| `enqueue` | `l` | `l ++ [a]` | `Fifo.Holds.enqueue` |
| `dequeue` | `c :: l` | `l` | `Fifo.Holds.dequeue` |
| `peek` | `c :: l` | `c :: l` | `Fifo.Holds.peek` |
| `freeQueue` | `l` | | `Fifo.Holds.freeQueue` |

What the queue does not hold is as it was before the queue was made
(`CpuScheduler.Fifo.Holds`). The generator and the scheduler are modelled with lists in place of
these queues, and are run on the nodes in `CpuScheduler.Generator.mainNodes_refines` and
`CpuScheduler.RRState.handleOnHeap_simulates`.
-/

namespace CpuScheduler

open Fallible

universe u

/-- A queue with its front, rear and size, and the nodes of the heap. -/
structure Fifo (α : Type u) where
  front : Option Addr
  rear : Option Addr
  size : ℤ
  nodes : Linked.Heap Addr α

namespace Fifo

variable {α : Type u}

/-- A queue without elements, in a heap with these nodes. -/
def create (nodes : Linked.Heap Addr α) : Fifo α where
  front := none
  rear := none
  size := 0
  nodes := nodes

/-! ### The heap -/

/-- Write a node, or give it back. -/
def write (q : Fifo α) (a : Addr) (n : Option (Linked.Node Addr α)) : Fifo α :=
  { q with nodes := Function.update q.nodes a n }

/-- Follow a pointer to a node. -/
def deref (q : Fifo α) : Option Addr → Except Fault (Linked.Node Addr α)
  | none => .error .nullDeref
  | some a =>
    match q.nodes a with
    | none => .error .useAfterFree
    | some n => .ok n

/-- `p->next = next`. -/
def setNext (q : Fifo α) (p next : Option Addr) : Except Fault (Fifo α) :=
  match p with
  | none => .error .nullDeref
  | some a =>
    match q.nodes a with
    | none => .error .useAfterFree
    | some n => .ok (q.write a (some { n with next := next }))

/-- `free`. -/
def free (q : Fifo α) : Option Addr → Except Fault (Fifo α)
  | none => .ok q
  | some a =>
    match q.nodes a with
    | none => .error .useAfterFree
    | some _ => .ok (q.write a none)

/-! ### The operations -/

def isEmpty (q : Fifo α) : Bool := q.front.isNone

/-- `node` is what `malloc` returned, `none` for `NULL`. -/
def enqueue (q : Fifo α) (node : Option Addr) (x : α) : Except Fault (Fifo α) :=
  match node with
  | none => .error .mallocFailed
  | some newNode => do
    let q := q.write newNode (some ⟨x, none⟩)
    if q.rear = none then
      .ok { q with front := some newNode, rear := some newNode, size := q.size + 1 }
    else do
      let q ← q.setNext q.rear (some newNode)
      .ok { q with rear := some newNode, size := q.size + 1 }

def dequeue (q : Fifo α) : Except Fault (α × Fifo α) :=
  if q.isEmpty then .error .underflow
  else do
    let temp := q.front
    let n ← q.deref temp
    let q := { q with front := n.next }
    let q := if q.front = none then { q with rear := none } else q
    let q ← q.free temp
    .ok (n.val, { q with size := q.size - 1 })

def peek (q : Fifo α) : Except Fault α :=
  if q.isEmpty then .error .underflow
  else do
    let n ← q.deref q.front
    .ok n.val

/-- The loop, which leaves the queue without nodes. -/
def freeQueue (q : Fifo α) : ℕ → Except Fault (Fifo α)
  | 0 => .error .blocked
  | fuel + 1 =>
    if q.isEmpty then .ok q
    else do
      let r ← q.dequeue
      r.2.freeQueue fuel

/-! ### The cells -/

/-- The queue is made of these cells, in a heap that is `nodes₀` everywhere else. -/
structure Holds (nodes₀ : Linked.Heap Addr α) (q : Fifo α) (cells : List (Addr × α)) :
    Prop where
  chain : Linked.Chain nodes₀ q.nodes q.front cells
  rear : q.rear = cells.getLast?.map Prod.fst
  size : q.size = cells.length

variable {nodes₀ : Linked.Heap Addr α} {q : Fifo α} {cells : List (Addr × α)} {c : Addr × α}
  {a : Addr} {n : Linked.Node Addr α} {fuel : ℕ}

theorem deref_of (h : q.nodes a = some n) : q.deref (some a) = .ok n := by
  rw [deref, h]

theorem setNext_of (h : q.nodes a = some n) (next : Option Addr) :
    q.setNext (some a) next = .ok (q.write a (some { n with next := next })) := by
  rw [setNext, h]

theorem free_of (h : q.nodes a = some n) : q.free (some a) = .ok (q.write a none) := by
  rw [free, h]

theorem Holds.front_nil (h : Holds nodes₀ q []) : q.front = none := h.chain.path

theorem Holds.isEmpty_iff (h : Holds nodes₀ q cells) : q.isEmpty = true ↔ cells = [] := by
  cases cells with
  | nil =>
    rw [isEmpty, h.front_nil]
    exact iff_of_true rfl rfl
  | cons c cells =>
    obtain ⟨_, hf, -⟩ := h.chain.path
    rw [isEmpty, hf]
    exact iff_of_false Bool.false_ne_true (List.cons_ne_nil c cells)

theorem Holds.not_isEmpty (h : Holds nodes₀ q (c :: cells)) : ¬q.isEmpty = true :=
  fun he => List.cons_ne_nil c cells (h.isEmpty_iff.mp he)

theorem holds_create (nodes : Linked.Heap Addr α) : Holds nodes (create nodes) [] where
  chain := Linked.chain_nil
  rear := rfl
  size := rfl

/-- An element goes in at the end. -/
theorem Holds.enqueue (h : Holds nodes₀ q cells) (ha : q.nodes a = none) (x : α) :
    ∃ t, q.enqueue (some a) x = .ok t ∧ Holds nodes₀ t (cells ++ [(a, x)]) := by
  rcases List.eq_nil_or_concat' cells with rfl | ⟨l, c, rfl⟩
  · -- the new node is the front and the rear
    have hpush := h.chain.push (x := x) ha
    rw [h.front_nil] at hpush
    have hr : (q.write a (some ⟨x, none⟩)).rear = none := h.rear
    have hsize : q.size = 0 := h.size
    refine ⟨_, by rw [Fifo.enqueue, if_pos hr], hpush, rfl, ?_⟩
    show q.size + 1 = 1
    rw [hsize, zero_add]
  · obtain ⟨next, hc, hnext, hchain⟩ := h.chain.insertAfter (x := x) ha
    obtain rfl : next = none := hnext
    have hr : q.rear = some c.1 := by
      rw [h.rear, List.getLast?_concat]
      rfl
    have hca : c.1 ≠ a := by
      intro he
      rw [he, ha] at hc
      simp at hc
    have hc' : (q.write a (some ⟨x, none⟩)).nodes c.1 = some ⟨c.2, none⟩ :=
      (Function.update_of_ne hca _ _).trans hc
    refine ⟨{ (q.write a (some ⟨x, none⟩)).write c.1 (some ⟨c.2, some a⟩) with
      rear := some a, size := q.size + 1 }, ?_, ?_⟩
    · have hr' : (q.write a (some ⟨x, none⟩)).rear = some c.1 := hr
      rw [Fifo.enqueue, hr', if_neg (by simp), setNext_of hc']
      rfl
    · rw [List.append_assoc]
      refine ⟨hchain, by simp, ?_⟩
      show q.size + 1 = _
      rw [h.size]
      simp only [List.length_append, List.length_cons, List.length_nil]
      push_cast
      ring

/-- The element at the front is taken, and its node given back. -/
theorem Holds.dequeue (h : Holds nodes₀ q (c :: cells)) :
    ∃ t, q.dequeue = .ok (c.2, t) ∧ Holds nodes₀ t cells := by
  obtain ⟨next, hf, hc, hchain⟩ := h.chain.pop
  have hsize : q.size - 1 = cells.length := by
    rw [h.size, List.length_cons, Nat.cast_succ, add_sub_cancel_right]
  rw [Fifo.dequeue, if_neg h.not_isEmpty]
  simp only [hf, deref_of hc, ok_bind]
  cases cells with
  | nil =>
    obtain rfl : next = none := hchain.path
    rw [if_pos rfl]
    exact ⟨_, by rw [free_of (by exact hc)]; rfl, hchain, rfl, hsize⟩
  | cons d cells =>
    obtain ⟨_, rfl, -⟩ := id hchain.path
    rw [if_neg (by simp)]
    refine ⟨_, by rw [free_of (by exact hc)]; rfl, hchain, ?_, hsize⟩
    exact h.rear.trans (by rw [List.getLast?_cons_cons])

theorem Holds.peek (h : Holds nodes₀ q (c :: cells)) : q.peek = .ok c.2 := by
  obtain ⟨_, hf, hc, -⟩ := id h.chain.path
  rw [Fifo.peek, if_neg h.not_isEmpty, hf, deref_of hc, ok_bind]

/-- **Every node is given back**: the heap is as it was before the queue was made. -/
theorem Holds.freeQueue (h : Holds nodes₀ q cells) (hfuel : cells.length < fuel) :
    ∃ t, q.freeQueue fuel = .ok t ∧ t.nodes = nodes₀ := by
  induction cells generalizing q fuel with
  | nil =>
    obtain ⟨fuel, rfl⟩ := Nat.exists_eq_succ_of_ne_zero hfuel.ne'
    refine ⟨q, by rw [Fifo.freeQueue, if_pos (h.isEmpty_iff.mpr rfl)], ?_⟩
    funext b
    exact h.chain.frame b List.not_mem_nil
  | cons c cells ih =>
    obtain ⟨fuel, rfl⟩ := Nat.exists_eq_succ_of_ne_zero (Nat.ne_zero_of_lt hfuel)
    obtain ⟨t, ht, hrest⟩ := h.dequeue
    rw [Fifo.freeQueue, if_neg h.not_isEmpty, ht, ok_bind]
    exact ih hrest (Nat.lt_of_succ_lt_succ hfuel)

/-- The queue is made of cells with these elements. -/
def Represents (nodes₀ : Linked.Heap Addr α) (q : Fifo α) (l : List α) : Prop :=
  ∃ cells, Holds nodes₀ q cells ∧ cells.map Prod.snd = l

variable {l : List α} {x : α}

theorem represents_create (nodes : Linked.Heap Addr α) : Represents nodes (create nodes) [] :=
  ⟨[], holds_create nodes, rfl⟩

theorem Represents.isEmpty_iff (h : Represents nodes₀ q l) : q.isEmpty = true ↔ l = [] := by
  obtain ⟨cells, h, rfl⟩ := h
  rw [h.isEmpty_iff, List.map_eq_nil_iff]

theorem Represents.enqueue (h : Represents nodes₀ q l) (ha : q.nodes a = none) (x : α) :
    ∃ t, q.enqueue (some a) x = .ok t ∧ Represents nodes₀ t (l ++ [x]) := by
  obtain ⟨cells, h, rfl⟩ := h
  obtain ⟨t, ht, hcells⟩ := h.enqueue ha x
  exact ⟨t, ht, _, hcells, List.map_append⟩

theorem Represents.dequeue (h : Represents nodes₀ q (x :: l)) :
    ∃ t, q.dequeue = .ok (x, t) ∧ Represents nodes₀ t l := by
  obtain ⟨cells, h, hl⟩ := h
  obtain ⟨c, cells, rfl, rfl, rfl⟩ := List.map_eq_cons_iff.mp hl
  obtain ⟨t, ht, hcells⟩ := h.dequeue
  exact ⟨t, ht, cells, hcells, rfl⟩

theorem Represents.peek (h : Represents nodes₀ q (x :: l)) : q.peek = .ok x := by
  obtain ⟨cells, h, hl⟩ := h
  obtain ⟨c, cells, rfl, rfl, rfl⟩ := List.map_eq_cons_iff.mp hl
  exact h.peek

theorem Represents.freeQueue (h : Represents nodes₀ q l) (hfuel : l.length < fuel) :
    ∃ t, q.freeQueue fuel = .ok t ∧ t.nodes = nodes₀ := by
  obtain ⟨cells, h, rfl⟩ := h
  rw [List.length_map] at hfuel
  exact h.freeQueue hfuel

end Fifo

/-! ### The queue of the requests -/

/-- `reqQueue`: the elements are pointers to requests. -/
abbrev ReqQueue := Fifo Addr

namespace ReqQueue

def createReqQueue (nodes : Linked.Heap Addr Addr) : ReqQueue := Fifo.create nodes

def isEmptyReq (q : ReqQueue) : Bool := Fifo.isEmpty q

def enqueueReq (q : ReqQueue) (node : Option Addr) (req : Addr) : Except Fault ReqQueue :=
  Fifo.enqueue q node req

def dequeueReq (q : ReqQueue) : Except Fault (Addr × ReqQueue) := Fifo.dequeue q

def peekReq (q : ReqQueue) : Except Fault Addr := Fifo.peek q

def freeReqQueue (q : ReqQueue) (fuel : ℕ) : Except Fault ReqQueue := Fifo.freeQueue q fuel

end ReqQueue

/-! ### The queue of the generator -/

/-- `PGQueue`: the elements are the processes. -/
abbrev PGQueue := Fifo ProcessData

namespace PGQueue

def pgCreateQueue (nodes : Linked.Heap Addr ProcessData) : PGQueue := Fifo.create nodes

def pgIsEmpty (q : PGQueue) : Bool := Fifo.isEmpty q

def pgEnqueue (q : PGQueue) (node : Option Addr) (p : ProcessData) : Except Fault PGQueue :=
  Fifo.enqueue q node p

def pgDequeue (q : PGQueue) : Except Fault (ProcessData × PGQueue) := Fifo.dequeue q

def pgPeek (q : PGQueue) : Except Fault ProcessData := Fifo.peek q

def pgFreeQueue (q : PGQueue) (fuel : ℕ) : Except Fault PGQueue := Fifo.freeQueue q fuel

end PGQueue

end CpuScheduler
