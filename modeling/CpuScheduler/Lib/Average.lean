import Mathlib.Algebra.BigOperators.Group.List.Basic
import Mathlib.Algebra.Order.BigOperators.Group.List
import Mathlib.Algebra.Order.Field.Basic
import Mathlib.Tactic.FieldSimp
import Mathlib.Tactic.LinearCombination
import Mathlib.Tactic.Ring

/-!
# Averages that are kept up to date

The average of a list of numbers, and the sum of the squared deviations from it, when one more
number comes. Neither needs the list: the new average is the old one, moved by the share of the
new number in the difference (`CpuScheduler.Average.average_concat`), and the new sum of squares
is the old one and a product of two differences, from the old average and from the new one
(`CpuScheduler.Average.deviation_concat`).

Both depend on how often each number occurs, and not on the order
(`CpuScheduler.Average.average_perm`, `CpuScheduler.Average.deviation_perm`).
-/

namespace CpuScheduler

namespace Average

universe u

variable {K : Type u} [Field K]

/-- The arithmetic mean. -/
def average (l : List K) : K := l.sum / l.length

/-- The sum of the squared deviations from `c`. -/
def deviationFrom (c : K) (l : List K) : K := (l.map fun x => (x - c) ^ 2).sum

/-- The sum of the squared deviations from the mean. -/
def deviation (l : List K) : K := deviationFrom (average l) l

variable {l l' : List K}

theorem deviationFrom_concat (c : K) (l : List K) (x : K) :
    deviationFrom c (l ++ [x]) = deviationFrom c l + (x - c) ^ 2 := by
  rw [deviationFrom, List.map_append, List.sum_append, deviationFrom, List.map_singleton,
    List.sum_singleton]

/-- The deviations from one point and from another. -/
theorem deviationFrom_eq (c d : K) (l : List K) : deviationFrom c l =
    deviationFrom d l + 2 * (d - c) * (l.sum - l.length * d) + l.length * (d - c) ^ 2 := by
  induction l with
  | nil => simp [deviationFrom]
  | cons x l ih =>
    have hcons : ∀ c : K, deviationFrom c (x :: l) = (x - c) ^ 2 + deviationFrom c l :=
      fun c => by rw [deviationFrom, List.map_cons, List.sum_cons, deviationFrom]
    rw [hcons, hcons, ih, List.sum_cons, List.length_cons, Nat.cast_add, Nat.cast_one]
    ring

theorem average_perm (h : l.Perm l') : average l = average l' := by
  rw [average, average, h.sum_eq, h.length_eq]

theorem deviation_perm (h : l.Perm l') : deviation l = deviation l' := by
  rw [deviation, deviation, average_perm h]
  exact (h.map _).sum_eq

section CharZero

variable [CharZero K]

theorem length_mul_average (l : List K) : l.length * average l = l.sum := by
  rcases eq_or_ne l [] with rfl | hne
  · rw [List.length_nil, Nat.cast_zero, zero_mul, List.sum_nil]
  · have hpos : (l.length : K) ≠ 0 :=
      Nat.cast_ne_zero.mpr fun h => hne (List.length_eq_zero_iff.mp h)
    exact mul_div_cancel₀ l.sum hpos

/-- **The average with one more number.** -/
theorem average_concat (l : List K) (x : K) :
    average (l ++ [x]) = average l + (x - average l) / (l.length + 1) := by
  have hpos : (l.length : K) + 1 ≠ 0 := Nat.cast_add_one_ne_zero l.length
  have hsum := length_mul_average l
  rw [average, List.sum_append, List.sum_singleton, List.length_append, List.length_singleton,
    Nat.cast_add, Nat.cast_one, ← hsum]
  field_simp
  ring

/-- The deviations from another point than the mean: they are larger. -/
theorem deviationFrom_eq_add (c : K) (l : List K) :
    deviationFrom c l = deviation l + l.length * (average l - c) ^ 2 := by
  rw [deviationFrom_eq c (average l), length_mul_average, sub_self, mul_zero, add_zero, deviation]

/-- **The deviations with one more number**: it is compared with the old average and with the new
one. -/
theorem deviation_concat (l : List K) (x : K) : deviation (l ++ [x]) =
    deviation l + (x - average l) * (x - average (l ++ [x])) := by
  have hpos : (l.length : K) + 1 ≠ 0 := Nat.cast_add_one_ne_zero l.length
  rw [deviation, deviationFrom_concat, deviationFrom_eq_add, average_concat]
  field_simp
  ring

end CharZero

/-- Deviations are not negative. -/
theorem deviation_nonneg [LinearOrder K] [IsStrictOrderedRing K] (l : List K) :
    0 ≤ deviation l := by
  refine List.sum_nonneg fun y hy => ?_
  obtain ⟨x, -, rfl⟩ := List.mem_map.mp hy
  exact sq_nonneg _

end Average

end CpuScheduler
