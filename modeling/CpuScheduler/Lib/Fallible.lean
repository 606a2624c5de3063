import Mathlib.Tactic.TypeStar
import Mathlib.Data.List.Basic

/-!
# Computations that may fail

Inversion and invariant rules for computations in `Except ε`, stated for an
arbitrary error type. A step of a program is such a computation when it may stop
on a fault; a proof about its result first takes the successful computation apart
(`CpuScheduler.Fallible.bind_eq_ok`), and a proof about a loop carries a predicate
through a monadic fold (`CpuScheduler.Fallible.foldlM_outcome`). Two computations that go
through the same steps are related step by step (`CpuScheduler.Fallible.Simulates.bind`).
-/

namespace CpuScheduler

namespace Fallible

universe u v

variable {ε : Type u} {α β σ : Type v}

/-! ### Taking a successful computation apart -/

/-- A sequence succeeds exactly when both of its parts do. -/
theorem bind_eq_ok {x : Except ε α} {f : α → Except ε β} {b : β} :
    (x >>= f) = .ok b ↔ ∃ a, x = .ok a ∧ f a = .ok b := by
  cases x with
  | error e =>
    constructor
    · intro h
      exact nomatch h
    · rintro ⟨_, h, _⟩
      exact nomatch h
  | ok a =>
    constructor
    · intro h
      exact ⟨a, rfl, h⟩
    · rintro ⟨a', h, hf⟩
      cases h
      exact hf

@[simp] theorem ok_bind (a : α) (f : α → Except ε β) : ((Except.ok a : Except ε α) >>= f) = f a :=
  rfl

@[simp] theorem error_bind (e : ε) (f : α → Except ε β) :
    ((Except.error e : Except ε α) >>= f) = .error e := rfl

@[simp] theorem pure_eq_ok (a : α) : (pure a : Except ε α) = .ok a := rfl

theorem toOption_eq_some {x : Except ε α} {a : α} : x.toOption = some a ↔ x = .ok a := by
  cases x with
  | error e => exact ⟨(fun h => nomatch h), fun h => nomatch h⟩
  | ok b => exact ⟨fun h => congrArg _ (Option.some.inj h), fun h => congrArg _ (Except.ok.inj h)⟩

/-- A sequence fails exactly when its first part does, or its second part does
after the first. -/
theorem bind_eq_error {x : Except ε α} {f : α → Except ε β} {e : ε} :
    (x >>= f) = .error e ↔ x = .error e ∨ ∃ a, x = .ok a ∧ f a = .error e := by
  cases x with
  | error e' =>
    constructor
    · intro h
      cases h
      exact Or.inl rfl
    · rintro (h | ⟨_, h, _⟩)
      · cases h
        rfl
      · exact nomatch h
  | ok a =>
    constructor
    · intro h
      exact Or.inr ⟨a, rfl, h⟩
    · rintro (h | ⟨a', h, hf⟩)
      · exact nomatch h
      · cases h
        exact hf

/-- A branch that keeps going keeps what both branches keep. -/
theorem ite_eq_ok {c : Prop} [Decidable c] {x y : Except ε α} {a : α}
    (h : (if c then x else y) = .ok a) : (c ∧ x = .ok a) ∨ (¬c ∧ y = .ok a) := by
  by_cases hc : c
  · exact Or.inl ⟨hc, by rwa [if_pos hc] at h⟩
  · exact Or.inr ⟨hc, by rwa [if_neg hc] at h⟩

/-! ### Outcomes -/

/-- The error a computation stops on. -/
def failure : Except ε α → Option ε
  | .ok _ => none
  | .error e => some e

theorem failure_eq_some {x : Except ε α} {e : ε} : failure x = some e ↔ x = .error e := by
  cases x with
  | ok a =>
    constructor
    · intro h
      exact nomatch h
    · intro h
      exact nomatch h
  | error e' =>
    constructor
    · intro h
      exact congrArg _ (Option.some.inj h)
    · intro h
      exact congrArg _ (Except.error.inj h)

/-- A result satisfies `Q`, an error satisfies `E`. -/
def Outcome (Q : α → Prop) (E : ε → Prop) : Except ε α → Prop
  | .ok a => Q a
  | .error e => E e

section Outcome

variable {Q Q' : α → Prop} {R : β → Prop} {E : ε → Prop} {x : Except ε α}

@[simp] theorem outcome_ok {a : α} : Outcome Q E (.ok a : Except ε α) ↔ Q a := Iff.rfl

@[simp] theorem outcome_error {e : ε} : Outcome Q E (.error e : Except ε α) ↔ E e := Iff.rfl

theorem Outcome.of_ok {a : α} (h : Outcome Q E x) (hx : x = .ok a) : Q a := by
  rw [hx] at h
  exact h

theorem Outcome.of_error {e : ε} (h : Outcome Q E x) (hx : x = .error e) : E e := by
  rw [hx] at h
  exact h

/-- **The rule of consequence.** -/
theorem Outcome.mono (h : Outcome Q E x) (hQ : ∀ a, Q a → Q' a) : Outcome Q' E x := by
  cases x with
  | error e => exact h
  | ok a => exact hQ a h

/-- **The rule of sequence.** -/
theorem Outcome.bind {f : α → Except ε β} (h : Outcome Q E x)
    (hf : ∀ a, Q a → Outcome R E (f a)) : Outcome R E (x >>= f) := by
  cases x with
  | error e => exact h
  | ok a => exact hf a h

/-- **The rule of choice.** -/
theorem Outcome.ite {c : Prop} [Decidable c] {y : Except ε α} (hx : c → Outcome Q E x)
    (hy : ¬c → Outcome Q E y) : Outcome Q E (if c then x else y) := by
  by_cases hc : c
  · rw [if_pos hc]
    exact hx hc
  · rw [if_neg hc]
    exact hy hc

end Outcome

/-! ### Two computations side by side -/

/-- Both computations fail alike, or both succeed and their results are related. Where `P`
holds, the first one may also stop on `stuck`. -/
inductive Simulates (stuck : ε) (P : Prop) (R : α → β → Prop) :
    Except ε α → Except ε β → Prop
  | ok {a : α} {b : β} (h : R a b) : Simulates stuck P R (.ok a) (.ok b)
  | error (e : ε) : Simulates stuck P R (.error e) (.error e)
  | stuck (h : P) (y : Except ε β) : Simulates stuck P R (.error stuck) y

section Simulates

variable {stuck : ε} {P P' : Prop} {α' β' : Type v} {R : α → β → Prop} {S : α' → β' → Prop}
  {x : Except ε α} {y : Except ε β}

/-- **The rule of sequence**, for two computations. -/
theorem Simulates.bind {f : α → Except ε α'} {g : β → Except ε β'}
    (h : Simulates stuck P R x y) (hfg : ∀ a b, R a b → Simulates stuck P S (f a) (g b)) :
    Simulates stuck P S (x >>= f) (y >>= g) := by
  cases h with
  | ok h => exact hfg _ _ h
  | error e => exact .error e
  | stuck h y => exact .stuck h _

/-- A computation goes along with itself. -/
theorem Simulates.bind_self {f : α → Except ε α'} {g : α → Except ε β'}
    (hfg : ∀ a, Simulates stuck P S (f a) (g a)) : Simulates stuck P S (x >>= f) (x >>= g) := by
  cases x with
  | ok a => exact hfg a
  | error e => exact .error e

/-- A last step that cannot fail may be taken on one side alone. -/
theorem Simulates.bind_right {g : β → β'} {S : α → β' → Prop} (h : Simulates stuck P R x y)
    (hg : ∀ a b, R a b → S a (g b)) : Simulates stuck P S x (y >>= fun b => .ok (g b)) := by
  cases h with
  | ok h => exact .ok (hg _ _ h)
  | error e => exact .error e
  | stuck h y => exact .stuck h _

/-- The same on the other side. -/
theorem Simulates.bind_left {f : α → α'} {S : α' → β → Prop} (h : Simulates stuck P R x y)
    (hf : ∀ a b, R a b → S (f a) b) : Simulates stuck P S (x >>= fun a => .ok (f a)) y := by
  cases h with
  | ok h => exact .ok (hf _ _ h)
  | error e => exact .error e
  | stuck h y => exact .stuck h _

theorem Simulates.mono {R' : α → β → Prop} (h : Simulates stuck P R x y) (hP : P → P')
    (hR : ∀ a b, R a b → R' a b) : Simulates stuck P' R' x y := by
  cases h with
  | ok h => exact .ok (hR _ _ h)
  | error e => exact .error e
  | stuck h y => exact .stuck (hP h) y

/-- Where the first computation succeeds, so does the second. -/
theorem Simulates.of_ok {a : α} (h : Simulates stuck P R x y) (hx : x = .ok a) :
    ∃ b, y = .ok b ∧ R a b := by
  cases h with
  | ok h =>
    cases hx
    exact ⟨_, rfl, h⟩
  | error e => exact nomatch hx
  | stuck h y => exact nomatch hx

/-- Where the first computation does not get stuck, it succeeds with the second. -/
theorem Simulates.ok_of_ok {b : β} (h : Simulates stuck P R x y) (hP : ¬P) (hy : y = .ok b) :
    ∃ a, x = .ok a ∧ R a b := by
  cases h with
  | ok h =>
    cases hy
    exact ⟨_, rfl, h⟩
  | error e => exact nomatch hy
  | stuck h y => exact absurd h hP

/-- Where the first computation does not get stuck, it fails with the second. -/
theorem Simulates.error_of_error {e : ε} (h : Simulates stuck P R x y) (hP : ¬P)
    (hy : y = .error e) : x = .error e := by
  cases h with
  | ok h => exact nomatch hy
  | error e' =>
    cases hy
    rfl
  | stuck h y => exact absurd h hP

end Simulates

/-! ### Loops -/

/-- **The loop rule**: what every pass keeps holds when the loop is over. -/
theorem foldlM_outcome {f : σ → α → Except ε σ} {P : σ → Prop} {E : ε → Prop}
    (hf : ∀ s a, P s → Outcome P E (f s a)) :
    ∀ (l : List α) (s : σ), P s → Outcome P E (l.foldlM f s)
  | [], _, hs => hs
  | a :: l, s, hs => by
    rw [List.foldlM_cons]
    exact (hf s a hs).bind fun t ht => foldlM_outcome hf l t ht

end Fallible

end CpuScheduler
