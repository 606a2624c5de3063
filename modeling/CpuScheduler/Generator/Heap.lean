import CpuScheduler.Generator.InputFile
import CpuScheduler.Queue.Fifo

/-!
# The generator on its heap

`main` of `process_generator/process_generator.c` once more, from the text of the input file to
`pg_freeQueue`, with the queue as it is: nodes that `malloc` returns and `free` takes back
(`CpuScheduler.PGQueue`). The model of the generator keeps a list in place of the queue, and this
is what it may do: the messages are those of the list, no call finds the queue empty or follows a
pointer that it must not follow, and the nodes are given back
(`CpuScheduler.Generator.mainNodes_refines`).

| loop | on the list | |
|---|---|---|
| over the lines of the file | `readFrom` | `readNodes_outcome` |
| over the front of the queue | `sendDue` | `sendNodes_eq` |
| over the ticks | `run` | `runNodes_eq` |

`malloc` is any function that does not return a node in use; where it returns `NULL`, the
generator exits.
-/

namespace CpuScheduler

namespace Generator

open Fallible World

/-- What the calls of `malloc` return, the first one, the second one and so on, in a heap with
these nodes. -/
abbrev Malloc := ℕ → Linked.Heap Addr ProcessData → Option Addr

/-- What `malloc` promises: it does not return a node that is in use. -/
def Malloc.Honest (malloc : Malloc) : Prop := ∀ k nodes, ∀ a ∈ malloc k nodes, nodes a = none

/-- The loop over the lines. -/
def readNodes (malloc : Malloc) : ℕ → List (List Char) → PGQueue → Except Fault PGQueue
  | _, [], q => .ok q
  | k, line :: lines, q =>
    match scanLine (cString line) with
    | none => readNodes malloc k lines q
    | some p =>
      if p.runtime > 0 then do
        let q ← PGQueue.pgEnqueue q (malloc k q.nodes) p
        readNodes malloc (k + 1) lines q
      else readNodes malloc k lines q

/-- The loop over the front of the queue: what is sent, and what is left. -/
def sendNodes (currentTime : ℤ) : ℕ → PGQueue → Except Fault (List ProcessData × PGQueue)
  | 0, _ => .error .blocked
  | fuel + 1, q =>
    if PGQueue.pgIsEmpty q then .ok ([], q)
    else do
      let front ← PGQueue.pgPeek q
      if front.arrival ≤ currentTime then do
        let r ← PGQueue.pgDequeue q
        let out ← sendNodes currentTime fuel r.2
        .ok (r.1 :: out.1, out.2)
      else .ok ([], q)

/-- The loop over the ticks: the messages, and the queue. -/
def runNodes (fuel : ℕ) :
    ℤ → PGQueue → List ℤ → Except Fault (List (ℤ × ProcessData) × PGQueue)
  | lastTime, q, [] => .ok (if PGQueue.pgIsEmpty q then [(lastTime, lastMsg)] else [], q)
  | lastTime, q, currentTime :: ts =>
    if PGQueue.pgIsEmpty q then .ok ([(lastTime, lastMsg)], q)
    else if currentTime = lastTime then runNodes fuel lastTime q ts
    else do
      let sent ← sendNodes currentTime fuel q
      let out ← runNodes fuel currentTime sent.2 ts
      .ok (sent.1.map (currentTime, ·) ++ (currentTime, syncMsg currentTime) :: out.1, out.2)

/-- `main`: the messages, and the queue, which is freed once the loop is left. -/
def mainNodes (malloc : Malloc) (fuel : ℕ) (nodes : Linked.Heap Addr ProcessData)
    (content : List Char) (ts : List ℤ) : Except Fault (List (ℤ × ProcessData) × PGQueue) := do
  let q ← readNodes malloc 0 (fgetsAll content []) (PGQueue.pgCreateQueue nodes)
  let out ← runNodes fuel (-1) q ts
  if PGQueue.pgIsEmpty out.2 then do
    let q ← PGQueue.pgFreeQueue out.2 fuel
    .ok (out.1, q)
  else .ok out

variable {malloc : Malloc} {fuel : ℕ} {nodes₀ : Linked.Heap Addr ProcessData} {q : PGQueue}
  {l : List ProcessData} {t : ℤ}

/-- **The file is read** as far as `malloc` finds memory. -/
theorem readNodes_outcome (hm : malloc.Honest) (h : Fifo.Represents nodes₀ q l)
    (k : ℕ) (lines : List (List Char)) :
    (readNodes malloc k lines q = .error .mallocFailed ∧ ∃ k nodes, malloc k nodes = none) ∨
      ∃ q', readNodes malloc k lines q = .ok q' ∧
        Fifo.Represents nodes₀ q' (readFrom lines l) := by
  induction lines generalizing k q l with
  | nil => exact Or.inr ⟨q, rfl, h⟩
  | cons line lines ih =>
    rw [readNodes, readFrom]
    cases scanLine (cString line) with
    | none => exact ih h k
    | some p =>
      dsimp only
      by_cases hpos : p.runtime > 0
      · rw [if_pos hpos, if_pos hpos]
        rcases hk : malloc k q.nodes with _ | a
        · exact Or.inl ⟨rfl, k, q.nodes, hk⟩
        · obtain ⟨q', hq', h'⟩ := h.enqueue (hm k q.nodes a hk) p
          rw [PGQueue.pgEnqueue, hq', ok_bind]
          exact ih h' (k + 1)
      · rw [if_neg hpos, if_neg hpos]
        exact ih h k

/-- **What is due is sent**, from the front. -/
theorem sendNodes_eq (h : Fifo.Represents nodes₀ q l) (hfuel : l.length < fuel) :
    ∃ q', sendNodes t fuel q = .ok ((sendDue t l).1, q') ∧
      Fifo.Represents nodes₀ q' (sendDue t l).2 := by
  induction l generalizing q fuel with
  | nil =>
    obtain ⟨fuel, rfl⟩ := Nat.exists_eq_succ_of_ne_zero hfuel.ne'
    exact ⟨q, by rw [sendNodes, PGQueue.pgIsEmpty, if_pos (h.isEmpty_iff.mpr rfl), sendDue], h⟩
  | cons p l ih =>
    obtain ⟨fuel, rfl⟩ := Nat.exists_eq_succ_of_ne_zero (Nat.ne_zero_of_lt hfuel)
    have hne : ¬q.isEmpty = true := fun he => List.cons_ne_nil p l (h.isEmpty_iff.mp he)
    rw [sendNodes, PGQueue.pgIsEmpty, if_neg hne, PGQueue.pgPeek, h.peek, ok_bind, sendDue]
    by_cases hdue : p.arrival ≤ t
    · obtain ⟨q₁, hq₁, h₁⟩ := h.dequeue
      obtain ⟨q₂, hq₂, h₂⟩ := ih h₁ (Nat.lt_of_succ_lt_succ hfuel)
      rw [if_pos hdue, if_pos hdue, PGQueue.pgDequeue, hq₁, ok_bind, hq₂]
      exact ⟨q₂, rfl, h₂⟩
    · rw [if_neg hdue, if_neg hdue]
      exact ⟨q, rfl, h⟩

theorem length_sendDue_le (t : ℤ) (l : List ProcessData) : (sendDue t l).2.length ≤ l.length := by
  conv_rhs => rw [← sendDue_append t l]
  rw [List.length_append]
  exact Nat.le_add_left _ _

/-- **The ticks**: what has not been sent is in the queue, and the last message says that nothing
is. -/
theorem runNodes_eq (last : ℤ) (ts : List ℤ) (h : Fifo.Represents nodes₀ q l)
    (hl : ∀ p ∈ l, p.mtype = 1) (hfuel : l.length < fuel) :
    ∃ q' l', runNodes fuel last q ts = .ok (run last l ts, q') ∧
      Fifo.Represents nodes₀ q' l' ∧ processes (run last l ts) ++ l' = l ∧
      (lastMsg ∈ (run last l ts).map Prod.snd ↔ l' = []) := by
  induction ts generalizing q l last with
  | nil =>
    rw [runNodes, PGQueue.pgIsEmpty]
    cases l with
    | nil =>
      rw [if_pos (h.isEmpty_iff.mpr rfl)]
      exact ⟨q, [], rfl, h, rfl, iff_of_true List.mem_cons_self rfl⟩
    | cons p l =>
      rw [if_neg fun he => List.cons_ne_nil p l (h.isEmpty_iff.mp he)]
      exact ⟨q, p :: l, rfl, h, rfl, iff_of_false List.not_mem_nil (List.cons_ne_nil p l)⟩
  | cons t ts ih =>
    rw [runNodes, PGQueue.pgIsEmpty]
    cases l with
    | nil =>
      rw [if_pos (h.isEmpty_iff.mpr rfl)]
      exact ⟨q, [], rfl, h, rfl, iff_of_true List.mem_cons_self rfl⟩
    | cons p l =>
      rw [if_neg fun he => List.cons_ne_nil p l (h.isEmpty_iff.mp he), run]
      by_cases ht : t = last
      · rw [if_pos ht, if_pos ht]
        exact ih last h hl hfuel
      · obtain ⟨q₁, hq₁, h₁⟩ := sendNodes_eq (t := t) h hfuel
        obtain ⟨q₂, l₂, hq₂, h₂, hout, hlast⟩ := ih t h₁ (mtype_left hl)
          ((length_sendDue_le t (p :: l)).trans_lt hfuel)
        rw [if_neg ht, if_neg ht, hq₁, ok_bind, hq₂]
        refine ⟨q₂, l₂, rfl, h₂, ?_, ?_⟩
        · have hsync : processes ((t, syncMsg t) :: run t (sendDue t (p :: l)).2 ts) =
              processes (run t (sendDue t (p :: l)).2 ts) := rfl
          rw [processes_append, processes_sent hl, hsync, List.append_assoc, hout, sendDue_append]
        · -- neither a process nor the message for a tick is the last message
          rw [← hlast, List.map_append, List.mem_append, List.map_cons, List.mem_cons]
          constructor
          · rintro (hmem | hsync | hmem)
            · obtain ⟨x, hx, he⟩ := List.mem_map.mp hmem
              obtain ⟨d, hd, rfl⟩ := List.mem_map.mp hx
              have hone := hl d (by
                rw [← sendDue_append t (p :: l)]
                exact List.mem_append_left _ hd)
              rw [show d = lastMsg from he] at hone
              exact absurd (show (5 : ℤ) = 1 from hone) (by decide)
            · exact absurd (show (5 : ℤ) = 2 from congrArg ProcessData.mtype hsync) (by decide)
            · exact hmem
          · exact fun hmem => Or.inr (Or.inr hmem)

theorem mtype_readInput {content : List Char} {p : ProcessData} (h : p ∈ readInput content) :
    p.mtype = 1 := by
  rw [readInput_eq, List.mem_filter, List.mem_filterMap] at h
  obtain ⟨⟨line, -, hline⟩, -⟩ := h
  rw [scanLine] at hline
  split_ifs at hline
  rw [processOf.eq_def] at hline
  split at hline
  · rw [← Option.some.inj hline]
  · exact absurd hline (by simp)

/-- **The generator needs no more of its queue than a list.** It stops early only if `malloc` has
returned `NULL`. Otherwise it sends what the list model sends; what has been read and not yet sent
is in the nodes, which are the only ones that it has changed; and with the last message all of
them are given back. -/
theorem mainNodes_refines (hm : malloc.Honest) (nodes : Linked.Heap Addr ProcessData)
    (content : List Char) (ts : List ℤ) (hfuel : (readInput content).length < fuel) :
    (mainNodes malloc fuel nodes content ts = .error .mallocFailed ∧
        ∃ k nodes, malloc k nodes = none) ∨
      ∃ q left, mainNodes malloc fuel nodes content ts =
          .ok (run (-1) (readInput content) ts, q) ∧
        processes (run (-1) (readInput content) ts) ++ left = readInput content ∧
        (lastMsg ∉ (run (-1) (readInput content) ts).map Prod.snd →
          Fifo.Represents nodes q left) ∧
        (lastMsg ∈ (run (-1) (readInput content) ts).map Prod.snd →
          left = [] ∧ q.nodes = nodes) := by
  rw [mainNodes]
  have hread := readNodes_outcome hm (Fifo.represents_create nodes) 0 (fgetsAll content [])
  rcases hread with ⟨herr, hnull⟩ | ⟨q, hq, h⟩
  · rw [PGQueue.pgCreateQueue, herr]
    exact Or.inl ⟨rfl, hnull⟩
  · obtain ⟨q₁, left, hrun, h₁, hout, hlast⟩ := runNodes_eq (-1) ts h
      (fun p hp => mtype_readInput hp) hfuel
    rw [PGQueue.pgCreateQueue, hq, ok_bind, hrun, ok_bind]
    have hlen : left.length < fuel := by
      refine lt_of_le_of_lt ?_ hfuel
      rw [readInput, ← hout, List.length_append]
      exact Nat.le_add_left _ _
    refine Or.inr ?_
    by_cases hleft : left = []
    · obtain ⟨q₂, hfree, hnodes⟩ := h₁.freeQueue hlen
      rw [PGQueue.pgIsEmpty, if_pos (h₁.isEmpty_iff.mpr hleft), PGQueue.pgFreeQueue, hfree]
      exact ⟨q₂, left, rfl, hout, fun hno => absurd (hlast.mpr hleft) hno, fun _ =>
        ⟨hleft, hnodes⟩⟩
    · rw [PGQueue.pgIsEmpty, if_neg fun he => hleft (h₁.isEmpty_iff.mp he)]
      exact ⟨q₁, left, rfl, hout, fun _ => h₁, fun hmem => absurd (hlast.mp hmem) hleft⟩

/-- A `malloc` that tries one address in each call. -/
def nextFree (k : ℕ) (nodes : Linked.Heap Addr ProcessData) : Option Addr :=
  if (nodes k).isNone then some k else none

/-- A file with one process, which arrives at tick 1. -/
def soleLine : List Char := "1 1 3 4 0 8\n".toList

/-- The process is sent at its tick, and its node is given back. -/
theorem mainNodes_refines_sole : ∃ q, q.nodes = (fun _ => none) ∧
    mainNodes nextFree 2 (fun _ => none) soleLine [0, 1, 2] =
      .ok ([(0, syncMsg 0), (1, ⟨1, 1, 1, 3, 4, 0, 8⟩), (1, syncMsg 1), (1, lastMsg)], q) := by
  have hhonest : Malloc.Honest nextFree := by
    intro k nodes a ha
    rw [nextFree] at ha
    split_ifs at ha with hk
    · rw [← Option.some.inj ha]
      exact Option.isNone_iff_eq_none.mp hk
    · exact absurd ha (by simp)
  have hread : readInput soleLine = [⟨1, 1, 1, 3, 4, 0, 8⟩] := by rfl
  have hsent : run (-1) (readInput soleLine) [0, 1, 2] =
      [(0, syncMsg 0), (1, ⟨1, 1, 1, 3, 4, 0, 8⟩), (1, syncMsg 1), (1, lastMsg)] := by
    rw [hread]
    rfl
  have hfuel : (readInput soleLine).length < 2 := by
    rw [hread]
    decide
  have hrefines := mainNodes_refines hhonest (fun _ => none) soleLine [0, 1, 2] hfuel
  have hok : (mainNodes nextFree 2 (fun _ => none) soleLine [0, 1, 2]).isOk = true := by rfl
  rcases hrefines with ⟨herr, -⟩ | ⟨q, left, hq, -, -, hlast⟩
  · rw [herr] at hok
    exact absurd hok Bool.false_ne_true
  · rw [hsent] at hq hlast
    exact ⟨q, (hlast (by simp)).2, hq⟩

end Generator

end CpuScheduler
