import CpuScheduler.Queue.Nodes
import CpuScheduler.Hpf.Priority
import CpuScheduler.Lib.Fallible
import Mathlib.Tactic

/-!
# The cells of a queue

What each function of `data_structures/PCB/Sch_PCB.c` does to the nodes of a queue. The
cells of a queue are its nodes from `front` to `NULL`; they determine `rear` and `size`
(`CpuScheduler.PCBQueue.Holds`), and every function puts one cell in or takes one out.

| function | cells before | cells after | |
|---|---|---|---|
| `enqueue` | `l` | `l ++ [a]` | `Holds.enqueue` |
| `enqueue_priority`, at the front | `l` | `a :: l` | `Holds.linkFront` |
| `enqueue_priority`, behind `d` | `l₁ ++ d :: l₂` | `l₁ ++ d :: a :: l₂` | `Holds.linkBehind` |
| `dequeue` | `c :: l` | `l` | `Holds.dequeue` |
| `dequeue_rear` | `l ++ [d]` | `l` | `Holds.dequeueRear` |
| `dequeue_by_id`, behind `c` | `l₁ ++ c :: d :: l₂` | `l₁ ++ c :: l₂` | `Holds.unlink` |

Where the cell goes in or comes out is decided by a loop. The loop comes to the place where
the list operation acts, reading the same PCBs in the same order, unless it runs out of fuel:
`CpuScheduler.PCBQueue.walk_path`, `CpuScheduler.PCBQueue.beforeRear_path`,
`CpuScheduler.PCBQueue.Holds.search`.
-/

namespace CpuScheduler

open Fallible

namespace Queue

variable (readPCB : Ptr → Except Fault PCB)

/-- What `dequeue_by_id` reads of an element. -/
def idAt (p : Ptr) : Except Fault ℤ := do
  let x ← readPCB p
  .ok x.id

/-- The loop of `enqueue_priority`, on pointers. -/
def insertAfterAt (pcb : Ptr) : List Ptr → Except Fault (List Ptr)
  | [] => .ok [pcb]
  | curr :: q => do
    let y ← readPCB curr
    let x ← readPCB pcb
    if y.priority < x.priority ∨ (y.priority = x.priority ∧ y.arrival ≤ x.arrival) then do
      let r ← insertAfterAt pcb q
      .ok (curr :: r)
    else .ok (pcb :: curr :: q)

/-- `enqueue_priority`, on pointers. -/
def enqueuePriorityAt (q : List Ptr) (pcb : Ptr) : Except Fault (List Ptr) :=
  match q with
  | [] => .ok [pcb]
  | front :: q => do
    let x ← readPCB pcb
    let y ← readPCB front
    if x.priority < y.priority then .ok (pcb :: front :: q)
    else do
      let r ← insertAfterAt readPCB pcb q
      .ok (front :: r)

/-- On valid pointers, the walk over pointers is the walk over PCBs. -/
theorem insertAfterAt_eq {pcbs : Ptr → PCB} {q : List Ptr} {pcb : Ptr}
    (h : ∀ p ∈ pcb :: q, readPCB p = .ok (pcbs p)) :
    ∃ q', insertAfterAt readPCB pcb q = .ok q' ∧
      q'.map pcbs = insertAfter (pcbs pcb) (q.map pcbs) := by
  induction q with
  | nil => exact ⟨[pcb], rfl, rfl⟩
  | cons curr q ih =>
    rw [insertAfterAt, h curr (by simp), h pcb (by simp), ok_bind, ok_bind, List.map_cons,
      insertAfter]
    by_cases hlt : (pcbs curr).priority < (pcbs pcb).priority ∨
        ((pcbs curr).priority = (pcbs pcb).priority ∧
          (pcbs curr).arrival ≤ (pcbs pcb).arrival)
    · have hq : ∀ p ∈ pcb :: q, readPCB p = .ok (pcbs p) :=
        List.forall_mem_cons.mpr ⟨h pcb (by simp), fun p hp => h p (by simp [hp])⟩
      obtain ⟨q', hq', hmap⟩ := ih hq
      refine ⟨curr :: q', by rw [if_pos hlt, hq', ok_bind], ?_⟩
      rw [if_pos hlt, List.map_cons, hmap]
    · exact ⟨pcb :: curr :: q, by rw [if_neg hlt], by rw [if_neg hlt]; rfl⟩

/-- **On valid pointers, `enqueue_priority` is that of the PCBs**
(`CpuScheduler.Queue.enqueuePriority`). -/
theorem enqueuePriorityAt_eq {pcbs : Ptr → PCB} {q : List Ptr} {pcb : Ptr}
    (h : ∀ p ∈ pcb :: q, readPCB p = .ok (pcbs p)) :
    ∃ q', enqueuePriorityAt readPCB q pcb = .ok q' ∧
      q'.map pcbs = enqueuePriority (q.map pcbs) (pcbs pcb) := by
  cases q with
  | nil => exact ⟨[pcb], rfl, rfl⟩
  | cons front q =>
    rw [enqueuePriorityAt, h pcb (by simp), h front (by simp), ok_bind, ok_bind, List.map_cons,
      enqueuePriority]
    by_cases hlt : (pcbs pcb).priority < (pcbs front).priority
    · exact ⟨pcb :: front :: q, by rw [if_pos hlt], by rw [if_pos hlt]; rfl⟩
    · have hq : ∀ p ∈ pcb :: q, readPCB p = .ok (pcbs p) :=
        List.forall_mem_cons.mpr ⟨h pcb (by simp), fun p hp => h p (by simp [hp])⟩
      obtain ⟨q', hq', hmap⟩ := insertAfterAt_eq readPCB hq
      refine ⟨front :: q', by rw [if_neg hlt, hq', ok_bind], ?_⟩
      rw [if_neg hlt, List.map_cons, hmap]

/-- What a call that may return `NULL` returns and leaves. -/
def orNull (q : List Ptr) : Option (Ptr × List Ptr) → Option Ptr × List Ptr
  | none => (none, q)
  | some (p, q') => (some p, q')

theorem orNull_map (p : Ptr) (q : List Ptr) (r : Option (Ptr × List Ptr)) :
    orNull (p :: q) (r.map fun r => (r.1, p :: r.2)) =
      ((orNull q r).1, p :: (orNull q r).2) := by
  cases r <;> rfl

end Queue

namespace PCBQueue

/-- The queue is made of these cells, in a heap that is `nodes₀` everywhere else. -/
structure Holds (nodes₀ : Linked.Heap Addr Ptr) (q : PCBQueue) (cells : List (Addr × Ptr)) :
    Prop where
  chain : Linked.Chain nodes₀ q.nodes q.front cells
  rear : q.rear = cells.getLast?.map Prod.fst
  size : q.size = cells.length

variable {nodes₀ : Linked.Heap Addr Ptr} {q : PCBQueue} {cells l₁ l₂ : List (Addr × Ptr)}
  {c d : Addr × Ptr} {a : Addr} {pcb : Ptr} {readPCB : Ptr → Except Fault PCB} {fuel : ℕ}

theorem Holds.front_nil (h : Holds nodes₀ q []) : q.front = none := h.chain.path

theorem Holds.front_cons (h : Holds nodes₀ q (c :: cells)) : q.front = some c.1 := by
  obtain ⟨_, hf, -⟩ := h.chain.path
  exact hf

theorem Holds.isEmpty_cons (h : Holds nodes₀ q (c :: cells)) : q.isEmpty = false := by
  rw [isEmpty, h.front_cons]
  rfl

theorem Holds.isEmpty_nil (h : Holds nodes₀ q []) : q.isEmpty = true := by
  rw [isEmpty, h.front_nil]
  rfl

theorem Holds.rear_concat (h : Holds nodes₀ q (cells ++ [d])) : q.rear = some d.1 := by
  rw [h.rear, List.getLast?_concat]
  rfl

theorem Holds.isEmpty_concat (h : Holds nodes₀ q (cells ++ [d])) : q.isEmpty = false := by
  cases cells with
  | nil => exact isEmpty_cons h
  | cons c cells => exact isEmpty_cons h

/-- One cell less. -/
theorem Holds.pred_size (h : Holds nodes₀ q (l₁ ++ d :: l₂)) :
    q.size - 1 = (l₁ ++ l₂).length := by
  rw [h.size]
  simp only [List.length_append, List.length_cons]
  push_cast
  ring

/-- The cells of the queue are at other addresses than what `malloc` returns. -/
theorem ne_of_unused {b : Addr} {n : Linked.Node Addr Ptr} (hb : q.nodes b = some n)
    (ha : q.nodes a = none) : b ≠ a := by
  rintro rfl
  rw [ha] at hb
  cases hb

theorem holds_createQueue (nodes : Linked.Heap Addr Ptr) : Holds nodes (createQueue nodes) [] where
  chain := Linked.chain_nil
  rear := rfl
  size := rfl

/-- `enqueue` puts a cell at the end. -/
theorem Holds.enqueue (h : Holds nodes₀ q cells) (ha : q.nodes a = none) (pcb : Ptr) :
    ∃ t, q.enqueue (some a) pcb = .ok t ∧ Holds nodes₀ t (cells ++ [(a, pcb)]) := by
  rcases List.eq_nil_or_concat' cells with rfl | ⟨l, c, rfl⟩
  · have hpush := h.chain.push (x := pcb) ha
    rw [h.front_nil] at hpush
    have hr : (q.write a (some ⟨pcb, none⟩)).rear = none := h.rear
    refine ⟨_, by rw [PCBQueue.enqueue, if_pos hr], hpush, rfl, ?_⟩
    simp [h.size]
  · obtain ⟨next, hc, hnext, hchain⟩ := h.chain.insertAfter (x := pcb) ha
    obtain rfl : next = none := hnext
    have hca := ne_of_unused hc ha
    have hc' : (q.write a (some ⟨pcb, none⟩)).nodes c.1 = some ⟨c.2, none⟩ := by
      rw [write_nodes, Function.update_of_ne hca, hc]
    refine ⟨{ (q.write a (some ⟨pcb, none⟩)).write c.1 (some ⟨c.2, some a⟩) with
      rear := some a, size := q.size + 1 }, ?_, ?_⟩
    · rw [PCBQueue.enqueue, write_rear, h.rear_concat, if_neg (by simp), setNext_of hc']
      rfl
    · rw [List.append_assoc]
      exact ⟨hchain, by simp, by simp [h.size]; ring⟩

/-- `dequeue` takes the cell at the front. -/
theorem Holds.dequeue (h : Holds nodes₀ q (c :: cells)) :
    ∃ t, q.dequeue = .ok (c.2, t) ∧ Holds nodes₀ t cells := by
  obtain ⟨next, hf, hc, hchain⟩ := h.chain.pop
  have h' : Holds nodes₀ q ([] ++ c :: cells) := h
  have hsize : q.size - 1 = cells.length := h'.pred_size
  rw [PCBQueue.dequeue, if_neg (by simp [h.isEmpty_cons])]
  simp only [hf, deref_of hc, ok_bind]
  cases cells with
  | nil =>
    obtain rfl : next = none := hchain.path
    rw [if_pos rfl]
    exact ⟨_, by rw [free_of (by exact hc)]; rfl, hchain, rfl, hsize⟩
  | cons d cells =>
    obtain ⟨_, rfl, -⟩ := id hchain.path
    rw [if_neg (by simp)]
    refine ⟨_, by rw [free_of (by exact hc)]; rfl, hchain, ?_, hsize⟩
    exact h.rear.trans (by rw [List.getLast?_cons_cons])

theorem Holds.dequeue_nil (h : Holds nodes₀ q []) : q.dequeue = .error .underflow := by
  rw [PCBQueue.dequeue, if_pos h.isEmpty_nil]

/-- `freeQueue` gives every node back: the heap is as it was before the queue was made. -/
theorem Holds.freeQueue (h : Holds nodes₀ q cells) (hfuel : cells.length < fuel) :
    ∃ t, q.freeQueue fuel = .ok t ∧ t.nodes = nodes₀ := by
  induction cells generalizing q fuel with
  | nil =>
    obtain ⟨fuel, rfl⟩ := Nat.exists_eq_succ_of_ne_zero hfuel.ne'
    refine ⟨q, by rw [PCBQueue.freeQueue, if_pos h.isEmpty_nil], ?_⟩
    funext b
    exact h.chain.frame b (fun hb => nomatch hb)
  | cons c cells ih =>
    obtain ⟨fuel, rfl⟩ := Nat.exists_eq_succ_of_ne_zero (Nat.ne_zero_of_lt hfuel)
    obtain ⟨t, ht, hrest⟩ := h.dequeue
    rw [PCBQueue.freeQueue, if_neg (by simp [h.isEmpty_cons]), ht, ok_bind]
    exact ih hrest (Nat.lt_of_succ_lt_succ hfuel)

theorem Holds.peek (h : Holds nodes₀ q (c :: cells)) : q.peek = .ok c.2 := by
  obtain ⟨_, hf, hc, -⟩ := id h.chain.path
  rw [PCBQueue.peek, if_neg (by simp [h.isEmpty_cons]), hf, deref_of hc, ok_bind]

theorem Holds.peekRear (h : Holds nodes₀ q (cells ++ [d])) : q.peekRear = .ok d.2 := by
  obtain ⟨_, hd⟩ := h.chain.path.allocated (c := d) (by simp)
  rw [PCBQueue.peekRear, if_neg (by simp [h.isEmpty_concat]), h.rear_concat, deref_of hd, ok_bind]

/-! ### `dequeue_rear` -/

/-- The loop of `dequeue_rear` comes to the cell in front of the last one. -/
theorem beforeRear_path {p : Option Addr} (hp : Linked.Path q.nodes p (l₁ ++ [c, d]) none)
    (hr : q.rear = some d.1) : ∀ fuel, q.beforeRear fuel p = .ok (some c.1) ∨
      (fuel ≤ l₁.length ∧ q.beforeRear fuel p = .error .blocked) := by
  intro fuel
  induction l₁ generalizing p fuel with
  | nil =>
    cases fuel with
    | zero => exact Or.inr ⟨le_rfl, rfl⟩
    | succ fuel =>
      obtain ⟨_, rfl, hc, _, rfl, -⟩ := hp
      refine Or.inl ?_
      rw [beforeRear, deref_of hc, ok_bind, if_pos hr.symm]
  | cons e l₁ ih =>
    cases fuel with
    | zero => exact Or.inr ⟨Nat.zero_le _, rfl⟩
    | succ fuel =>
      obtain ⟨next, rfl, he, hp⟩ := hp
      have hp' : Linked.Path q.nodes next ((l₁ ++ [c]) ++ [d]) none := by
        rwa [List.append_assoc]
      have hne : next ≠ q.rear := hr ▸ hp'.start_ne (by simp)
      rw [beforeRear, deref_of he, ok_bind, if_neg hne]
      exact (ih hp fuel).imp_right fun ⟨hle, hb⟩ => ⟨Nat.succ_le_succ hle, hb⟩

/-- `dequeue_rear` takes the last cell. -/
theorem Holds.dequeueRear (h : Holds nodes₀ q (cells ++ [d])) (fuel : ℕ) :
    (∃ t, q.dequeueRear fuel = .ok (some d.2, t) ∧ Holds nodes₀ t cells) ∨
      (fuel ≤ cells.length ∧ q.dequeueRear fuel = .error .blocked) := by
  have hr := h.rear_concat
  have hsize : q.size - 1 = cells.length := by
    rw [h.pred_size, List.append_nil]
  rcases List.eq_nil_or_concat' cells with rfl | ⟨l, c, rfl⟩
  · obtain ⟨next, hf, hd, hchain⟩ := h.chain.pop
    obtain rfl : next = none := hchain.path
    refine Or.inl ⟨{ q.write d.1 none with front := none, rear := none, size := q.size - 1 },
      ?_, hchain, rfl, hsize⟩
    rw [PCBQueue.dequeueRear, if_neg (by simp [isEmpty, hf]), if_pos (hf.trans hr.symm), hf,
      deref_of hd, ok_bind, free_of hd]
    rfl
  · have hne : q.front ≠ q.rear := hr ▸ h.chain.path.start_ne (by simp)
    have hl : l ++ [c] ++ [d] = l ++ c :: [d] := by simp
    have hchain := h.chain
    rw [hl] at hchain
    have hpath := hchain.path
    obtain ⟨next, hc, hd, hchain⟩ := hchain.removeAfter
    have hcd : c.1 ≠ d.1 := by
      rw [← hl] at hpath
      exact hpath.ne_of_mem (by simp)
    obtain rfl : next = none := by
      obtain ⟨_, -, _, -, -, _, -, hd', hnext⟩ := Linked.path_append.mp hpath
      rw [hd] at hd'
      cases hd'
      exact hnext
    rw [PCBQueue.dequeueRear, if_neg (by simp [h.isEmpty_concat]), if_neg hne]
    rcases beforeRear_path hpath hr fuel with htrav | ⟨hle, hb⟩
    · refine Or.inl ⟨{ q with
        rear := some c.1
        size := q.size - 1
        nodes := Function.update (Function.update q.nodes d.1 none) c.1 (some ⟨c.2, none⟩) },
        ?_, ?_⟩
      · have hc' : ({ q.write d.1 none with rear := some c.1 } : PCBQueue).nodes c.1 =
            some ⟨c.2, some d.1⟩ := by
          rw [write_nodes, Function.update_of_ne hcd, hc]
        rw [htrav, ok_bind, hr, deref_of hd, ok_bind, free_of hd, ok_bind]
        simp only [setNext_of hc', ok_bind]
        rfl
      · refine ⟨?_, by simp, hsize⟩
        rw [Function.update_comm hcd.symm]
        exact hchain
    · rw [hb, error_bind]
      refine Or.inr ⟨?_, rfl⟩
      rw [List.length_append, List.length_singleton]
      omega

/-! ### `enqueue_priority` -/

/-- The loop of `enqueue_priority` comes to the cell that the list operation puts the new
element behind. -/
theorem walk_path {p : Option Addr} {l : List (Addr × Ptr)}
    (hp : Linked.Path q.nodes p (c :: l) none) (fuel : ℕ) :
    Simulates .blocked (fuel ≤ l.length)
      (fun curr r => ∃ l₁ d l₂, c :: l = l₁ ++ d :: l₂ ∧ curr = some d.1 ∧
        c.2 :: r = l₁.map Prod.snd ++ d.2 :: pcb :: l₂.map Prod.snd)
      (q.walk readPCB pcb fuel p) (Queue.insertAfterAt readPCB pcb (l.map Prod.snd)) := by
  induction l generalizing c p fuel with
  | nil =>
    cases fuel with
    | zero => exact .stuck le_rfl _
    | succ fuel =>
      obtain ⟨_, rfl, hc, rfl⟩ := hp
      rw [walk, deref_of hc, ok_bind, if_pos rfl]
      exact .ok ⟨[], c, [], rfl, rfl, rfl⟩
  | cons d l ih =>
    cases fuel with
    | zero => exact .stuck (Nat.zero_le _) _
    | succ fuel =>
      obtain ⟨_, rfl, hc, hp⟩ := hp
      obtain ⟨_, rfl, hd, -⟩ := id hp
      rw [walk, deref_of hc, ok_bind, if_neg (by simp), deref_of hd, ok_bind, List.map_cons,
        Queue.insertAfterAt]
      refine .bind_self fun y => .bind_self fun x => ?_
      by_cases hlt : y.priority < x.priority ∨
          (y.priority = x.priority ∧ y.arrival ≤ x.arrival)
      · rw [if_pos hlt, if_pos hlt]
        refine ((ih hp fuel).mono Nat.succ_le_succ fun _ _ h => h).bind_right ?_
        rintro curr r ⟨l₁, e, l₂, hl, hcurr, hr⟩
        exact ⟨c :: l₁, e, l₂, by rw [hl, List.cons_append], hcurr,
          by rw [hr, List.map_cons, List.cons_append]⟩
      · rw [if_neg hlt, if_neg hlt]
        exact .ok ⟨[], c, d :: l, rfl, rfl, rfl⟩

/-- The queue is made of cells with these values. -/
def Represents (nodes₀ : Linked.Heap Addr Ptr) (q : PCBQueue) (l : List Ptr) : Prop :=
  ∃ cells, Holds nodes₀ q cells ∧ cells.map Prod.snd = l

theorem Holds.linkFront (h : Holds nodes₀ q cells) (ha : q.nodes a = none) (pcb : Ptr) :
    ∃ t, (q.write a (some ⟨pcb, none⟩)).linkFront a = .ok t ∧
      Holds nodes₀ t ((a, pcb) :: cells) := by
  have hself : (q.write a (some ⟨pcb, none⟩)).nodes a = some ⟨pcb, none⟩ := by simp
  have hpush := h.chain.push (x := pcb) ha
  rw [PCBQueue.linkFront, setNext_of hself, ok_bind]
  refine ⟨_, rfl, ?_⟩
  cases cells with
  | nil =>
    have hr : q.rear = none := h.rear
    simp only [write_rear, hr, if_true]
    exact ⟨by simpa using hpush, rfl, by simp [h.size]⟩
  | cons c cells =>
    have hr : q.rear = ((a, pcb) :: c :: cells).getLast?.map Prod.fst := by
      rw [h.rear, List.getLast?_cons_cons]
    have hne : q.rear ≠ none := by simp [hr]
    simp only [write_rear, hne, if_false]
    exact ⟨by simpa using hpush, hr, by simp [h.size]⟩

theorem Holds.linkBehind (h : Holds nodes₀ q (l₁ ++ d :: l₂)) (ha : q.nodes a = none)
    (pcb : Ptr) :
    ∃ t, (q.write a (some ⟨pcb, none⟩)).linkBehind a (some d.1) = .ok t ∧
      Holds nodes₀ t (l₁ ++ d :: (a, pcb) :: l₂) := by
  obtain ⟨next, hd, hnext, hchain⟩ := h.chain.insertAfter (x := pcb) ha
  have hda := ne_of_unused hd ha
  have hself : (q.write a (some ⟨pcb, none⟩)).nodes a = some ⟨pcb, none⟩ := by simp
  have hd' : (q.write a (some ⟨pcb, none⟩)).nodes d.1 = some ⟨d.2, next⟩ := by
    rw [write_nodes, Function.update_of_ne hda, hd]
  have hd'' : ((q.write a (some ⟨pcb, none⟩)).write a (some ⟨pcb, next⟩)).nodes d.1 =
      some ⟨d.2, next⟩ := by
    rw [write_nodes, Function.update_of_ne hda, hd']
  have hself' : (((q.write a (some ⟨pcb, none⟩)).write a (some ⟨pcb, next⟩)).write d.1
      (some ⟨d.2, some a⟩)).nodes a = some ⟨pcb, next⟩ := by
    rw [write_nodes, Function.update_of_ne hda.symm, write_nodes, Function.update_self]
  rw [PCBQueue.linkBehind, deref_of hd', ok_bind, setNext_of hself, ok_bind, setNext_of hd'',
    ok_bind, deref_of hself', ok_bind]
  refine ⟨_, rfl, ?_⟩
  cases l₂ with
  | nil =>
    obtain rfl : next = none := hnext
    simp only [if_true]
    exact ⟨by simpa using hchain, by simp, by simp [h.size]; ring⟩
  | cons e l₂ =>
    obtain ⟨_, rfl, -⟩ := hnext
    simp only [reduceCtorEq, if_false]
    exact ⟨by simpa using hchain, by simp [h.rear], by simp [h.size]; ring⟩

/-- `enqueue_priority` puts a cell where the list operation puts the element. -/
theorem Holds.enqueuePriority (h : Holds nodes₀ q cells) (ha : q.nodes a = none) (fuel : ℕ) :
    Simulates .blocked (fuel ≤ cells.length) (Represents nodes₀)
      (q.enqueuePriority readPCB fuel (some a) pcb)
      (Queue.enqueuePriorityAt readPCB (cells.map Prod.snd) pcb) := by
  obtain ⟨s, hs, hfront⟩ := h.linkFront ha pcb
  rw [PCBQueue.enqueuePriority, beforeFront, write_front]
  cases cells with
  | nil =>
    rw [h.front_nil, if_pos rfl, ok_bind, if_pos rfl, hs]
    exact .ok ⟨_, hfront, rfl⟩
  | cons c cells =>
    obtain ⟨_, hf, hc, -⟩ := id h.chain.path
    -- the new node does not change the way to the others
    have hother : ∀ e ∈ c :: cells,
        (q.write a (some ⟨pcb, none⟩)).nodes e.1 = q.nodes e.1 := by
      intro e he
      refine Function.update_of_ne ?_ _ _
      rintro rfl
      exact (h.chain.of_unused ha).1 (List.mem_map_of_mem he)
    have hpath := hf ▸ h.chain.path.congr hother
    rw [hf, if_neg (by simp), bind_assoc, List.map_cons, Queue.enqueuePriorityAt]
    refine .bind_self fun x => ?_
    rw [deref_of ((hother c List.mem_cons_self).trans hc), ok_bind, bind_assoc]
    refine .bind_self fun y => ?_
    rw [ok_bind]
    by_cases hlt : x.priority < y.priority
    · rw [if_pos hlt, if_pos (decide_eq_true hlt), hs]
      exact .ok ⟨_, hfront, rfl⟩
    · rw [if_neg hlt, if_neg (by simp [hlt])]
      refine ((walk_path hpath fuel).mono (fun hle => Nat.le_succ_of_le hle)
        fun _ _ h => h).bind ?_
      rintro _ r ⟨l₁, d, l₂, hl, rfl, hr⟩
      rw [hl] at h
      obtain ⟨t, ht, hbehind⟩ := h.linkBehind ha pcb
      rw [ht]
      exact .ok ⟨_, hbehind, by rw [hr, List.map_append, List.map_cons, List.map_cons]⟩

/-! ### `dequeue_by_id` -/

theorem Holds.unlink (h : Holds nodes₀ q (l₁ ++ c :: d :: l₂)) :
    ∃ t, q.unlink (some c.1) (some d.1) = .ok (some d.2, t) ∧
      Holds nodes₀ t (l₁ ++ c :: l₂) := by
  obtain ⟨next, hc, hd, hchain⟩ := h.chain.removeAfter
  have hpath : Linked.Path q.nodes q.front ((l₁ ++ [c]) ++ d :: l₂) none := by
    rw [List.append_assoc]
    exact h.chain.path
  have hcd : c.1 ≠ d.1 := hpath.ne_of_mem (by simp)
  have hd' : (q.write c.1 (some ⟨c.2, next⟩)).nodes d.1 = some ⟨d.2, next⟩ := by
    rw [write_nodes, Function.update_of_ne hcd.symm, hd]
  have hsize : q.size - 1 = (l₁ ++ c :: l₂).length := by
    have h' : Holds nodes₀ q ((l₁ ++ [c]) ++ d :: l₂) := by
      rwa [List.append_assoc]
    rw [h'.pred_size, List.append_assoc]
    rfl
  rw [PCBQueue.unlink, deref_of hd, ok_bind, setNext_of hc, ok_bind]
  simp only [write_rear]
  rcases List.eq_nil_or_concat' l₂ with rfl | ⟨l, e, rfl⟩
  · have hr : q.rear = some d.1 := by simp [h.rear]
    simp only [hr, if_true]
    rw [free_of (by exact hd'), ok_bind]
    exact ⟨_, rfl, hchain, by simp, hsize⟩
  · have hlast : ∀ l' : List (Addr × Ptr),
        ((l' ++ (l ++ [e])).getLast?.map Prod.fst) = some e.1 := by
      intro l'
      rw [← List.append_assoc, List.getLast?_concat]
      rfl
    have hr : q.rear = some e.1 := by
      rw [h.rear, ← hlast (l₁ ++ [c, d])]
      simp
    have hed : some d.1 ≠ some e.1 := by
      intro he
      exact hpath.ne_of_mem (d := e) (by simp) (Option.some.inj he).symm
    simp only [hr, hed, if_false]
    rw [free_of hd', ok_bind]
    refine ⟨_, rfl, hchain, ?_, hsize⟩
    rw [show l₁ ++ c :: (l ++ [e]) = (l₁ ++ [c]) ++ (l ++ [e]) by simp, hlast]
    exact hr

/-- The loop of `dequeue_by_id` takes the cell that the list operation takes. -/
theorem Holds.search {next : Option Addr} {id : ℤ} (h : Holds nodes₀ q (l₁ ++ c :: l₂))
    (hnext : Linked.Path q.nodes next l₂ none) (fuel : ℕ) :
    Simulates .blocked (fuel ≤ l₂.length)
      (fun r s => r.1 = (Queue.orNull (l₂.map Prod.snd) s).1 ∧
        Represents nodes₀ r.2
          (l₁.map Prod.snd ++ c.2 :: (Queue.orNull (l₂.map Prod.snd) s).2))
      (q.search readPCB id fuel (some c.1) next)
      (Queue.dequeueById (Queue.idAt readPCB) id (l₂.map Prod.snd)) := by
  induction l₂ generalizing l₁ c next fuel with
  | nil =>
    cases fuel with
    | zero => exact .stuck le_rfl _
    | succ fuel =>
      obtain rfl : next = none := hnext
      rw [PCBQueue.search, if_pos rfl]
      exact .ok ⟨rfl, _, h, by simp [Queue.orNull]⟩
  | cons d l₂ ih =>
    cases fuel with
    | zero => exact .stuck (Nat.zero_le _) _
    | succ fuel =>
      obtain ⟨next, rfl, hd, hnext⟩ := hnext
      rw [PCBQueue.search, if_neg (by simp), deref_of hd, ok_bind, List.map_cons,
        Queue.dequeueById, Queue.idAt, bind_assoc]
      refine .bind_self fun x => ?_
      rw [ok_bind]
      by_cases hid : x.id = id
      · obtain ⟨t, ht, hrest⟩ := h.unlink
        rw [if_pos hid, if_pos hid, ht]
        exact .ok ⟨rfl, _, hrest, by simp [Queue.orNull]⟩
      · rw [if_neg hid, if_neg hid]
        have h' : Holds nodes₀ q ((l₁ ++ [c]) ++ d :: l₂) := by
          rwa [List.append_assoc]
        refine ((ih h' hnext fuel).mono Nat.succ_le_succ fun _ _ h => h).bind_right ?_
        rintro r s ⟨hr, hrep⟩
        rw [Queue.orNull_map]
        refine ⟨hr, ?_⟩
        simpa using hrep

/-- `dequeue_by_id` takes the cell that the list operation takes. -/
theorem Holds.dequeueById {id : ℤ} (h : Holds nodes₀ q cells) (fuel : ℕ) :
    Simulates .blocked (fuel ≤ cells.length)
      (fun r s => r.1 = (Queue.orNull (cells.map Prod.snd) s).1 ∧
        Represents nodes₀ r.2 (Queue.orNull (cells.map Prod.snd) s).2)
      (q.dequeueById readPCB fuel id)
      (Queue.dequeueById (Queue.idAt readPCB) id (cells.map Prod.snd)) := by
  rw [PCBQueue.dequeueById]
  cases cells with
  | nil =>
    rw [if_pos h.isEmpty_nil]
    exact .ok ⟨rfl, [], h, rfl⟩
  | cons c cells =>
    have hpath := h.chain.path
    obtain ⟨next, hf, hc, hnext⟩ := hpath
    rw [if_neg (by simp [h.isEmpty_cons]), hf, deref_of hc, ok_bind, List.map_cons,
      Queue.dequeueById, Queue.idAt, bind_assoc]
    refine .bind_self fun x => ?_
    rw [ok_bind]
    by_cases hid : x.id = id
    · obtain ⟨t, ht, hrest⟩ := h.dequeue
      rw [if_pos hid, if_pos hid, ht]
      exact .ok ⟨rfl, _, hrest, rfl⟩
    · rw [if_neg hid, if_neg hid]
      have h' : Holds nodes₀ q ([] ++ c :: cells) := h
      refine ((h'.search hnext fuel).mono (fun hle => Nat.le_succ_of_le hle)
        fun _ _ h => h).bind_right ?_
      rintro r s ⟨hr, hrep⟩
      rw [Queue.orNull_map]
      exact ⟨hr, hrep⟩

end PCBQueue

end CpuScheduler
