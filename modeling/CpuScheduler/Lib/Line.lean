import Mathlib.Data.List.Nodup

/-!
# Waiting in line

A line is a list without repetitions. Those in front of somebody are the elements before his
place (`CpuScheduler.Line.inFront`). When some leave and others come to its end, those who are
in front of somebody are still in the order in which they were, and nobody has come between
(`CpuScheduler.Line.inFront_sublist`, `CpuScheduler.Line.inFront_append`).
-/

namespace CpuScheduler

namespace Line

universe u

variable {α : Type u} [DecidableEq α] {l r : List α} {a f : α}

/-- Those in front of an element. -/
def inFront (a : α) (r : List α) : List α := r.takeWhile (· ≠ a)

@[simp] theorem inFront_cons_self (a : α) (r : List α) : inFront a (a :: r) = [] := by
  simp [inFront]

theorem inFront_cons_of_ne (h : f ≠ a) (r : List α) : inFront a (f :: r) = f :: inFront a r := by
  simp [inFront, h]

/-- Those who come later are not in front. -/
theorem inFront_append (h : a ∈ l) (u : List α) : inFront a (l ++ u) = inFront a l := by
  induction l with
  | nil => exact absurd h List.not_mem_nil
  | cons b l ih =>
    rw [List.cons_append]
    by_cases hb : b = a
    · subst hb
      rw [inFront_cons_self, inFront_cons_self]
    · rw [inFront_cons_of_ne hb, inFront_cons_of_ne hb,
        ih ((List.mem_cons.mp h).resolve_left (Ne.symm hb))]

/-- **When some leave**, nobody gets in front. -/
theorem inFront_sublist (h : l.Sublist r) (ha : a ∈ l) (hn : r.Nodup) :
    (inFront a l).Sublist (inFront a r) := by
  induction h with
  | slnil => exact absurd ha List.not_mem_nil
  | @cons l r b h ih =>
    obtain ⟨hb, hn⟩ := List.nodup_cons.mp hn
    have hne : b ≠ a := fun he => hb (he ▸ h.subset ha)
    rw [inFront_cons_of_ne hne]
    exact (ih ha hn).cons b
  | @cons_cons l r b h ih =>
    by_cases hb : b = a
    · subst hb
      rw [inFront_cons_self]
      exact List.nil_sublist _
    · rw [inFront_cons_of_ne hb, inFront_cons_of_ne hb]
      have ha' : a ∈ l := (List.mem_cons.mp ha).resolve_left (Ne.symm hb)
      exact (ih ha' (List.nodup_cons.mp hn).2).cons_cons b

end Line

end CpuScheduler
