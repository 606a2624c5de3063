import Mathlib.Data.List.Basic

/-!
# What has happened since

Histories are lists with the latest event at the end. `CpuScheduler.Since b a l` says that
an event of kind `a` has occurred in `l`, and since then only events of kind `b`: the
past-time operator of temporal logic. What a new event does to it is
`CpuScheduler.since_concat`, and that is all an induction over a run needs.
-/

namespace CpuScheduler

universe u

variable {α : Type u} {a a' b b' : α → Prop} {l : List α} {e : α}

/-- An `a` has occurred, and since then only `b`. -/
def Since (b a : α → Prop) (l : List α) : Prop :=
  ∃ pre e post, l = pre ++ e :: post ∧ a e ∧ ∀ x ∈ post, b x

/-- **One more event**: it is an `a`, or there was one before and this is a `b`. -/
theorem since_concat : Since b a (l ++ [e]) ↔ a e ∨ (b e ∧ Since b a l) := by
  constructor
  · rintro ⟨pre, x, post, h, ha, hb⟩
    rcases List.eq_nil_or_concat post with rfl | ⟨post, y, rfl⟩
    · obtain ⟨-, he⟩ := List.append_inj' h rfl
      obtain ⟨rfl, -⟩ := List.cons.inj he
      exact Or.inl ha
    · rw [List.concat_eq_append] at h hb
      rw [← List.cons_append, ← List.append_assoc] at h
      obtain ⟨rfl, he⟩ := List.append_inj' h rfl
      obtain ⟨rfl, -⟩ := List.cons.inj he
      exact Or.inr ⟨hb _ (List.mem_append_right _ List.mem_cons_self), pre, x, post, rfl, ha,
        fun z hz => hb z (List.mem_append_left _ hz)⟩
  · rintro (ha | ⟨hb, pre, x, post, rfl, ha, hpost⟩)
    · exact ⟨l, e, [], rfl, ha, List.forall_mem_nil b⟩
    · refine ⟨pre, x, post ++ [e], ?_, ha, fun z hz => ?_⟩
      · rw [List.append_assoc, List.cons_append]
      · rcases List.mem_append.mp hz with hz | hz
        · exact hpost z hz
        · exact List.mem_singleton.mp hz ▸ hb

/-- An event that is none of the ends and does not interrupt. -/
theorem since_concat_of (ha : ¬a e) (hb : b e) : Since b a (l ++ [e]) ↔ Since b a l := by
  rw [since_concat]
  exact ⟨fun h => (h.resolve_left ha).2, fun h => Or.inr ⟨hb, h⟩⟩

end CpuScheduler
