import Mathlib.Tactic.TypeStar

/-!
# Runs of a transition system

Reachability and the two rules that every safety statement goes through: a predicate
that holds initially and is kept by every step holds in every reachable state
(`CpuScheduler.TransitionSystem.Reachable.invariant`), and it may be kept only
relative to what is already known of the reachable states
(`CpuScheduler.TransitionSystem.Reachable.invariant_of`). An explicit run is given by its
events (`CpuScheduler.TransitionSystem.playAll`).
-/

namespace CpuScheduler

universe u v

/-- Initial states and steps. -/
structure TransitionSystem (σ : Type u) where
  init : σ → Prop
  step : σ → σ → Prop

namespace TransitionSystem

variable {σ : Type u} {τ : Type v} {S : TransitionSystem σ} {T : TransitionSystem τ}

/-- The states a run can be in. -/
inductive Reachable (S : TransitionSystem σ) : σ → Prop
  | init {s : σ} (h : S.init s) : S.Reachable s
  | step {s t : σ} (h : S.Reachable s) (hst : S.step s t) : S.Reachable t

/-- **The invariant rule.** -/
theorem Reachable.invariant {P : σ → Prop} (hinit : ∀ s, S.init s → P s)
    (hstep : ∀ s t, P s → S.step s t → P t) {s : σ} (h : S.Reachable s) : P s := by
  induction h with
  | init h => exact hinit _ h
  | step _ hst ih => exact hstep _ _ ih hst

/-- **The invariant rule, relative to a known invariant.** -/
theorem Reachable.invariant_of {J P : σ → Prop} (hJ : ∀ s, S.Reachable s → J s)
    (hinit : ∀ s, S.init s → P s) (hstep : ∀ s t, J s → P s → S.step s t → P t) {s : σ}
    (h : S.Reachable s) : P s := by
  induction h with
  | init h => exact hinit _ h
  | step h hst ih => exact hstep _ _ (hJ _ h) ih hst

/-- Make several moves of a party that has at most one for each event. -/
def playAll {ε : Type v} (f : σ → ε → Option σ) : σ → List ε → Option σ
  | s, [] => some s
  | s, e :: l => (f s e).bind fun t => playAll f t l

/-- **An explicit run is a run.** -/
theorem Reachable.playAll {ε : Type v} {f : σ → ε → Option σ}
    (hf : ∀ s e t, f s e = some t → S.step s t) {s t : σ} {l : List ε} (hs : S.Reachable s)
    (h : TransitionSystem.playAll f s l = some t) : S.Reachable t := by
  induction l generalizing s with
  | nil => exact Option.some.inj h ▸ hs
  | cons e l ih =>
    obtain ⟨s', hs', h⟩ := Option.bind_eq_some_iff.mp h
    exact ih (.step hs (hf _ _ _ hs')) h

/-- **The simulation rule**: a map that sends steps to steps, or to no step at all,
sends runs to runs. -/
theorem Reachable.map {f : σ → τ} (hinit : ∀ s, S.init s → T.init (f s))
    (hstep : ∀ s t, S.Reachable s → S.step s t → T.step (f s) (f t) ∨ f t = f s) {s : σ}
    (h : S.Reachable s) : T.Reachable (f s) := by
  induction h with
  | init h => exact .init (hinit _ h)
  | step h hst ih =>
    rcases hstep _ _ h hst with ht | he
    · exact .step ih ht
    · exact he ▸ ih

end TransitionSystem

end CpuScheduler
