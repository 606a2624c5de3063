import Mathlib.Data.List.Basic

/-!
# Ledgers

A ledger records what is put into cells, and for whom. A party asks for a value, and later the
value is put into some cell for it; a party may also be given a first value that it has not
asked for.

* `CpuScheduler.Ledger.contents` – what a cell holds, if the ledger is right;
* `CpuScheduler.Ledger.asked` – what a party has asked for and not been given yet;
* `CpuScheduler.Ledger.Answered` – nothing is put into a cell that was not asked for.

What a new entry does to them is all that an induction over a run needs. Nothing is assumed of
the cells, the parties and the values.
-/

namespace CpuScheduler

namespace Ledger

universe u v w

/-- An entry of a ledger. -/
inductive Entry (C : Type u) (P : Type v) (V : Type w)
  /-- The party asks for the value. -/
  | ask (p : P) (x : V)
  /-- The value is put into the cell, for the party. -/
  | put (c : C) (p : P) (x : V)
deriving DecidableEq, Repr

variable {C : Type u} {P : Type v} {V : Type w} [DecidableEq C] [DecidableEq P]

/-- A cell after an entry. -/
def Entry.fill (c : C) (s : Option (P × V)) : Entry C P V → Option (P × V)
  | .ask _ _ => s
  | .put d p x => if d = c then some (p, x) else s

/-- What was put into a cell last, and for whom. -/
def contents (l : List (Entry C P V)) (c : C) : Option (P × V) := l.foldl (Entry.fill c) none

/-- What a party waits for after an entry. -/
def Entry.await (p : P) (s : Option V) : Entry C P V → Option V
  | .ask q x => if q = p then some x else s
  | .put _ q _ => if q = p then none else s

/-- What a party has asked for, as long as nothing has been put into a cell for it. -/
def asked (l : List (Entry C P V)) (p : P) : Option V := l.foldl (Entry.await p) none

/-- **Everything was asked for**: a value that is put into a cell is the first one of its party,
or what it has asked for last. -/
def Answered (first : P → V) (l : List (Entry C P V)) : Prop :=
  ∀ pre c p x post, l = pre ++ .put c p x :: post → x = first p ∨ asked pre p = some x

variable {l : List (Entry C P V)} {c d : C} {p q : P} {x : V} {first : P → V}

/-! ### One more entry -/

omit [DecidableEq P] in
@[simp] theorem contents_ask : contents (l ++ [.ask p x]) d = contents l d := by
  rw [contents, List.foldl_append]
  rfl

omit [DecidableEq P] in
theorem contents_put : contents (l ++ [.put c p x]) d =
    if c = d then some (p, x) else contents l d := by
  rw [contents, List.foldl_append]
  rfl

omit [DecidableEq C] in
theorem asked_ask : asked (l ++ [.ask p x]) q = if p = q then some x else asked l q := by
  rw [asked, List.foldl_append]
  rfl

omit [DecidableEq C] in
theorem asked_put : asked (l ++ [.put c p x]) q = if p = q then none else asked l q := by
  rw [asked, List.foldl_append]
  rfl

omit [DecidableEq C] in
theorem answered_nil : Answered first ([] : List (Entry C P V)) := by
  intro pre c p x post h
  simp at h

omit [DecidableEq C] in
/-- Where the entry is in a list with one more. -/
theorem Answered.concat {e : Entry C P V} (h : Answered first l)
    (he : ∀ c p x, e = .put c p x → x = first p ∨ asked l p = some x) :
    Answered first (l ++ [e]) := by
  intro pre c p x post hl
  rcases List.eq_nil_or_concat' post with rfl | ⟨post, e', rfl⟩
  · obtain ⟨rfl, hlast⟩ := List.append_inj' hl rfl
    exact he c p x (List.cons.inj hlast).1
  · rw [← List.cons_append, ← List.append_assoc] at hl
    exact h pre c p x post (List.append_inj' hl rfl).1

omit [DecidableEq C] in
theorem Answered.ask (h : Answered first l) (p : P) (x : V) :
    Answered first (l ++ [.ask p x]) :=
  h.concat fun _ _ _ he => by simp at he

omit [DecidableEq C] in
theorem Answered.put (h : Answered first l) (c : C) (hx : x = first p ∨ asked l p = some x) :
    Answered first (l ++ [.put c p x]) := by
  refine h.concat fun c' p' x' he => ?_
  injection he with _ hp hx'
  rw [← hp, ← hx']
  exact hx

end Ledger

end CpuScheduler
