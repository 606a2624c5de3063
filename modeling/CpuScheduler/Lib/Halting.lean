import Mathlib.Computability.StateTransition

/-!
# Coming to an end

Whether the iteration of a partial function comes to an end is whether
`StateTransition.eval` is defined. It is where the function is not; it is not on a cycle;
and a move does not change it. With `StateTransition.tr_eval_dom` it goes from one system to
another that simulates it.
-/

namespace CpuScheduler

namespace Halting

open StateTransition

universe u

variable {α : Type u} {f : α → Option α} {a a' : α}

theorem dom_of_none (h : f a = none) : (eval f a).Dom :=
  Part.dom_iff_mem.mpr ⟨a, mem_eval.mpr ⟨.refl, h⟩⟩

theorem dom_step_iff (h : f a = some a') : (eval f a).Dom ↔ (eval f a').Dom := by
  rw [reaches_eval (.single h : Reaches f a a')]

/-- The iteration comes to an end exactly when it comes to a place where it cannot go on. -/
theorem dom_iff_exists : (eval f a).Dom ↔ ∃ b, Reaches f a b ∧ f b = none := by
  rw [Part.dom_iff_mem]
  exact exists_congr fun b => mem_eval

/-- An iteration that comes back goes on for ever. -/
theorem not_dom_of_cycle (h : f a = some a') (h' : f a' = some a) : ¬(eval f a).Dom := by
  rw [dom_iff_exists]
  rintro ⟨z, hreach, hnone⟩
  have hcycle : ∀ y, Reaches f a y → y = a ∨ y = a' := by
    intro y hy
    induction hy with
    | refl => exact Or.inl rfl
    | tail _ hst ih =>
      rcases ih with rfl | rfl
      · exact Or.inr (Option.mem_unique hst h)
      · exact Or.inl (Option.mem_unique hst h')
  rcases hcycle z hreach with rfl | rfl
  · exact nomatch h.symm.trans hnone
  · exact nomatch h'.symm.trans hnone

end Halting

end CpuScheduler
