import CpuScheduler.Queue
import CpuScheduler.Lib.StableInsert
import Mathlib.Data.Prod.Lex
import Mathlib.Data.Int.Order.Basic

/-!
# The priority queue

`enqueue_priority` of `data_structures/PCB/Sch_PCB.c` keeps the ready queue of HPF. It
compares a new PCB with the front by priority alone, and with everything behind the front by
priority and then by arrival (`CpuScheduler.Queue.insertAfter`). So it is the stable insertion
by `(priority, arrival)` of `CpuScheduler.Stable.insert`, except for a PCB that has the
priority of the front and arrived before it: the front keeps its place
(`CpuScheduler.Queue.Overtaken`).

By priority alone the queue is always sorted (`CpuScheduler.Queue.sorted_priority`), and that
is what HPF relies on.
-/

namespace CpuScheduler

namespace Queue

/-- The loop of `enqueue_priority`: past every element that comes before `pcb`. -/
def insertAfter (pcb : PCB) : List PCB → List PCB
  | [] => [pcb]
  | curr :: q =>
    if curr.priority < pcb.priority ∨
        (curr.priority = pcb.priority ∧ curr.arrival ≤ pcb.arrival) then
      curr :: insertAfter pcb q
    else pcb :: curr :: q

/-- `enqueue_priority`. -/
def enqueuePriority : List PCB → PCB → List PCB
  | [], pcb => [pcb]
  | front :: q, pcb =>
    if pcb.priority < front.priority then pcb :: front :: q
    else front :: insertAfter pcb q

/-- `dequeue`, so many times. -/
def dequeueMany {α : Type} : ℕ → List α → Except Fault (List α × List α)
  | 0, q => .ok ([], q)
  | n + 1, q => do
    let r ← dequeue q
    let s ← dequeueMany n r.2
    .ok (r.1 :: s.1, s.2)

/-- The order of the queue: priority first, then arrival. -/
def rank (pcb : PCB) : ℤ ×ₗ ℤ := toLex (pcb.priority, pcb.arrival)

/-- The front of the queue has the priority of the new PCB, and arrived later. -/
def Overtaken (q : List PCB) (pcb : PCB) : Prop :=
  ∃ front ∈ q.head?, front.priority = pcb.priority ∧ pcb.arrival < front.arrival

instance (q : List PCB) (pcb : PCB) : Decidable (Overtaken q pcb) :=
  inferInstanceAs (Decidable (∃ front ∈ q.head?, _))

section Rank

variable {a b : PCB}

theorem rank_lt : rank a < rank b ↔
    a.priority < b.priority ∨ (a.priority = b.priority ∧ a.arrival < b.arrival) :=
  Prod.Lex.toLex_lt_toLex

theorem rank_le : rank a ≤ rank b ↔
    a.priority < b.priority ∨ (a.priority = b.priority ∧ a.arrival ≤ b.arrival) :=
  Prod.Lex.toLex_le_toLex

theorem priority_le_of_rank_le (h : rank a ≤ rank b) : a.priority ≤ b.priority := by
  rcases rank_le.mp h with h | ⟨h, -⟩
  · exact h.le
  · exact h.le

end Rank

variable {q : List PCB} {pcb : PCB}

/-! ### The insertion, and where it differs from the stable one -/

/-- Behind the front, the walk is the stable insertion. -/
theorem insertAfter_eq : insertAfter pcb q = Stable.insert rank pcb q := by
  induction q with
  | nil => rfl
  | cons curr q ih =>
    by_cases h : rank pcb < rank curr
    · rw [insertAfter, if_neg fun hle => (rank_le.mpr hle).not_gt h,
        Stable.insert_cons_of_lt q h]
    · rw [insertAfter, if_pos (rank_le.mp (not_lt.mp h)), ih, Stable.insert_cons_of_not_lt q h]

/-- Where the front is not overtaken, `enqueue_priority` is the stable insertion. -/
theorem enqueuePriority_eq (h : ¬Overtaken q pcb) :
    enqueuePriority q pcb = Stable.insert rank pcb q := by
  cases q with
  | nil => rfl
  | cons front q =>
    by_cases hp : pcb.priority < front.priority
    · rw [enqueuePriority, if_pos hp, Stable.insert_cons_of_lt q (rank_lt.mpr (Or.inl hp))]
    · have hr : ¬rank pcb < rank front := by
        intro hlt
        rcases rank_lt.mp hlt with hlt | ⟨he, ha⟩
        · exact hp hlt
        · exact h ⟨front, rfl, he.symm, ha⟩
      rw [enqueuePriority, if_neg hp, insertAfter_eq, Stable.insert_cons_of_not_lt q hr]

/-- A front that is overtaken stays in front. -/
theorem enqueuePriority_of_overtaken (h : Overtaken q pcb) :
    ∃ front rest, q = front :: rest ∧ rank pcb < rank front ∧
      enqueuePriority q pcb = front :: Stable.insert rank pcb rest := by
  obtain ⟨front, hf, hp, ha⟩ := h
  obtain ⟨rest, rfl⟩ := List.head?_eq_some_iff.mp hf
  refine ⟨front, rest, rfl, rank_lt.mpr (Or.inr ⟨hp.symm, ha⟩), ?_⟩
  rw [enqueuePriority, if_neg hp.le.not_gt, insertAfter_eq]

/-- The PCB goes in somewhere, and nothing else changes. -/
theorem enqueuePriority_split (q : List PCB) (pcb : PCB) :
    ∃ l r, q = l ++ r ∧ enqueuePriority q pcb = l ++ pcb :: r := by
  have hinsert : ∀ q : List PCB, ∃ l r, q = l ++ r ∧ Stable.insert rank pcb q = l ++ pcb :: r :=
    fun q => ⟨_, _, (List.takeWhile_append_dropWhile).symm, List.orderedInsert_eq_take_drop _ _ q⟩
  by_cases h : Overtaken q pcb
  · obtain ⟨front, rest, rfl, -, he⟩ := enqueuePriority_of_overtaken h
    obtain ⟨l, r, rfl, hi⟩ := hinsert rest
    exact ⟨front :: l, r, rfl, by rw [he, hi, List.cons_append]⟩
  · obtain ⟨l, r, hq, hi⟩ := hinsert q
    exact ⟨l, r, hq, by rw [enqueuePriority_eq h, hi]⟩

theorem perm_enqueuePriority (q : List PCB) (pcb : PCB) :
    (enqueuePriority q pcb).Perm (pcb :: q) := by
  obtain ⟨l, r, rfl, he⟩ := enqueuePriority_split q pcb
  rw [he]
  exact List.perm_middle

@[simp] theorem mem_enqueuePriority {a : PCB} :
    a ∈ enqueuePriority q pcb ↔ a = pcb ∨ a ∈ q := by
  rw [(perm_enqueuePriority q pcb).mem_iff, List.mem_cons]

/-- The queue keeps its order exactly when the front is not overtaken. -/
theorem sorted_enqueuePriority_iff :
    Stable.Sorted rank (enqueuePriority q pcb) ↔ Stable.Sorted rank q ∧ ¬Overtaken q pcb := by
  constructor
  · intro h
    refine ⟨?_, fun ho => ?_⟩
    · obtain ⟨l, r, rfl, he⟩ := enqueuePriority_split q pcb
      rw [he] at h
      exact h.of_insertion
    · obtain ⟨front, rest, rfl, hlt, he⟩ := enqueuePriority_of_overtaken ho
      rw [he] at h
      have hmem : pcb ∈ Stable.insert rank pcb rest :=
        (List.mem_orderedInsert _).mpr (Or.inl rfl)
      exact ((Stable.sorted_cons.mp h).1 pcb hmem).not_gt hlt
  · rintro ⟨hq, ho⟩
    rw [enqueuePriority_eq ho]
    exact (Stable.inserted_insert pcb hq).1

theorem mem_insertAfter {a : PCB} : a ∈ insertAfter pcb q ↔ a = pcb ∨ a ∈ q := by
  rw [insertAfter_eq]
  exact List.mem_orderedInsert _

theorem sorted_priority_insertAfter (h : Stable.Sorted PCB.priority q) :
    Stable.Sorted PCB.priority (insertAfter pcb q) := by
  induction q with
  | nil => exact List.pairwise_singleton _ pcb
  | cons curr q ih =>
    obtain ⟨hc, hq⟩ := Stable.sorted_cons.mp h
    rw [insertAfter]
    split
    · rename_i hle
      refine Stable.sorted_cons.mpr ⟨fun b hb => ?_, ih hq⟩
      rcases mem_insertAfter.mp hb with rfl | hb
      · omega
      · exact hc b hb
    · rename_i hle
      refine Stable.sorted_cons.mpr ⟨fun b hb => ?_, h⟩
      rcases List.mem_cons.mp hb with rfl | hb
      · omega
      · have := hc b hb
        omega

/-- **By priority alone the queue is always sorted**, whoever overtakes whom. -/
theorem sorted_priority (h : Stable.Sorted PCB.priority q) :
    Stable.Sorted PCB.priority (enqueuePriority q pcb) := by
  cases q with
  | nil => exact List.pairwise_singleton _ pcb
  | cons front q =>
    obtain ⟨hf, hq⟩ := Stable.sorted_cons.mp h
    rw [enqueuePriority]
    split
    · rename_i hlt
      refine Stable.sorted_cons.mpr ⟨fun b hb => ?_, h⟩
      rcases List.mem_cons.mp hb with rfl | hb
      · exact hlt.le
      · exact hlt.le.trans (hf b hb)
    · rename_i hlt
      refine Stable.sorted_cons.mpr ⟨fun b hb => ?_, sorted_priority_insertAfter hq⟩
      rcases mem_insertAfter.mp hb with rfl | hb
      · exact not_lt.mp hlt
      · exact hf b hb

/-! ### Insertions and then dequeues -/

/-- The dequeues bring out the queue from front to rear. -/
theorem dequeueMany_length {α : Type} (q : List α) : dequeueMany q.length q = .ok (q, []) := by
  induction q with
  | nil => rfl
  | cons a q ih => rw [List.length_cons, dequeueMany, dequeue_cons, Fallible.ok_bind, ih,
      Fallible.ok_bind]

theorem perm_enqueueAll (l : List PCB) : (l.foldl enqueuePriority []).Perm l := by
  induction l using List.reverseRecOn with
  | nil => exact List.Perm.refl []
  | append_singleton l a ih =>
    rw [List.foldl_concat]
    exact (perm_enqueuePriority _ a).trans
      ((ih.cons a).trans (List.perm_append_singleton a l).symm)

/-- What overtakes the front of a sorted queue comes before everything in it. -/
theorem overtaken_iff (hq : Stable.Sorted rank q) : Overtaken q pcb ↔
    (∃ c ∈ q, c.priority = pcb.priority) ∧ ∀ c ∈ q, rank pcb < rank c := by
  constructor
  · intro h
    obtain ⟨front, rest, rfl, hlt, -⟩ := enqueuePriority_of_overtaken h
    obtain ⟨_, hf, hp, -⟩ := h
    cases hf
    refine ⟨⟨front, List.mem_cons_self, hp⟩, fun c hc => ?_⟩
    rcases List.mem_cons.mp hc with rfl | hc
    · exact hlt
    · exact hlt.trans_le ((Stable.sorted_cons.mp hq).1 c hc)
  · rintro ⟨⟨c, hc, hp⟩, hlt⟩
    cases q with
    | nil => exact nomatch hc
    | cons front q =>
      have hf := hlt front List.mem_cons_self
      have hfc : front.priority ≤ c.priority := by
        rcases List.mem_cons.mp hc with rfl | hc
        · exact le_refl _
        · exact priority_le_of_rank_le ((Stable.sorted_cons.mp hq).1 c hc)
      rcases rank_lt.mp hf with hlt | ⟨he, ha⟩
      · omega
      · exact ⟨front, rfl, he.symm, ha⟩

/-- Whether the insertions of `l`, one after the other, leave a sorted queue. -/
theorem sorted_enqueueAll_iff (l : List PCB) :
    Stable.Sorted rank (l.foldl enqueuePriority []) ↔ ∀ pre pcb post, l = pre ++ pcb :: post →
      ¬((∃ c ∈ pre, c.priority = pcb.priority) ∧ ∀ c ∈ pre, rank pcb < rank c) := by
  induction l using List.reverseRecOn with
  | nil =>
    refine iff_of_true List.Pairwise.nil fun pre pcb post h => ?_
    exact nomatch (List.append_eq_nil_iff.mp h.symm).2
  | append_singleton l a ih =>
    rw [List.foldl_concat, sorted_enqueuePriority_iff]
    constructor
    · rintro ⟨hs, ho⟩ pre pcb post h
      rcases List.eq_nil_or_concat post with rfl | ⟨post, b, rfl⟩
      · obtain ⟨rfl, he⟩ := List.append_inj' h rfl
        obtain rfl := List.singleton_inj.mp he
        rw [overtaken_iff hs] at ho
        simpa only [(perm_enqueueAll l).mem_iff] using ho
      · rw [List.concat_eq_append, ← List.cons_append, ← List.append_assoc] at h
        exact ih.mp hs pre pcb post (List.append_inj' h rfl).1
    · intro h
      have hs : Stable.Sorted rank (l.foldl enqueuePriority []) := ih.mpr fun pre pcb post he =>
        h pre pcb (post ++ [a]) (by rw [he, List.append_assoc, List.cons_append])
      refine ⟨hs, ?_⟩
      rw [overtaken_iff hs]
      simpa only [(perm_enqueueAll l).mem_iff] using h l a [] rfl

/-- **The priority queue keeps its order** exactly where the front is not overtaken. On a
queue sorted by priority and arrival, `enqueue_priority` is a stable insertion unless the new
PCB has the priority of the front and arrived before it; and PCBs inserted into an empty
queue come out in order exactly when none of them arrived before everything inserted so far,
at a priority that is already there and at the front. -/
theorem enqueuePriority_inserted_iff (hq : Stable.Sorted rank q) (l : List PCB) :
    (Stable.Inserted rank pcb q (enqueuePriority q pcb) ↔
      ¬∃ front ∈ q.head?, front.priority = pcb.priority ∧ pcb.arrival < front.arrival) ∧
    ∃ out, dequeueMany l.length (l.foldl enqueuePriority []) = .ok (out, []) ∧
      out.Perm l ∧ (Stable.Sorted rank out ↔ ∀ pre pcb post, l = pre ++ pcb :: post →
        ¬((∃ c ∈ pre, c.priority = pcb.priority) ∧ ∀ c ∈ pre, rank pcb < rank c)) := by
  refine ⟨⟨fun h ho => ?_, fun ho => ?_⟩, ?_⟩
  · exact (sorted_enqueuePriority_iff.mp h.1).2 ho
  · rw [enqueuePriority_eq ho]
    exact Stable.inserted_insert pcb hq
  · refine ⟨l.foldl enqueuePriority [], ?_, perm_enqueueAll l, sorted_enqueueAll_iff l⟩
    rw [← (perm_enqueueAll l).length_eq]
    exact dequeueMany_length _

/-- A PCB of the given priority that arrived at the given tick. -/
def arrived (priority arrival : ℤ) : PCB :=
  { createPCB (soleProcess 0) with priority := priority, arrival := arrival }

theorem enqueuePriority_inserted_iff_one :
    Stable.Inserted rank (arrived 1 5) [arrived 1 3]
      (enqueuePriority [arrived 1 3] (arrived 1 5)) :=
  (enqueuePriority_inserted_iff (by decide) []).1.mpr (by decide)

/-- Two PCBs of one priority, the later arrival first: the earlier one goes behind it. -/
theorem enqueuePriority_not_sorted : ¬∀ (q : List PCB) (pcb : PCB), Stable.Sorted rank q →
    Stable.Inserted rank pcb q (enqueuePriority q pcb) := by
  intro h
  have hs : Stable.Sorted rank (enqueuePriority [arrived 1 5] (arrived 1 3)) :=
    (h [arrived 1 5] (arrived 1 3) (by decide)).1
  exact absurd hs (by decide)

end Queue

end CpuScheduler
