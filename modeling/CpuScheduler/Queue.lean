import CpuScheduler.Structs
import CpuScheduler.Lib.Fallible
import Mathlib.Tactic

/-!
# Queues

The PCB queue of `data_structures/PCB/Sch_PCB.c` and the request queue of
`data_structures/REQ/requests.c`, as the list of their elements from `front` to
`rear`. `dequeue` on an empty queue is the `exit(1)` of the source
(`CpuScheduler.Fault.underflow`); `dequeue_rear` and `dequeue_by_id` return `NULL`
instead.

`dequeue_by_id` follows the pointers it walks over, so it is given the function
that reads an element's id, which may fail.
-/

namespace CpuScheduler

namespace Queue

variable {α : Type}

/-- `isEmpty`. -/
def isEmpty (q : List α) : Bool := q.isEmpty

/-- `enqueue`: append at the rear. -/
def enqueue (q : List α) (a : α) : List α := q ++ [a]

/-- `dequeue`: take the front. -/
def dequeue : List α → Except Fault (α × List α)
  | [] => .error .underflow
  | a :: q => .ok (a, q)

/-- `peek`: read the front. -/
def peek : List α → Except Fault α
  | [] => .error .underflow
  | a :: _ => .ok a

/-- `dequeue_rear`: take the rear, or `NULL`. -/
def dequeueRear (q : List α) : Option (α × List α) :=
  q.getLast?.map fun a => (a, q.dropLast)

/-- `dequeue_by_id`: take the first element with the given id, or `NULL`. -/
def dequeueById (idOf : α → Except Fault ℤ) (id : ℤ) :
    List α → Except Fault (Option (α × List α))
  | [] => .ok none
  | a :: q => do
    let i ← idOf a
    if i = id then .ok (some (a, q))
    else do
      let r ← dequeueById idOf id q
      .ok (r.map fun r => (r.1, a :: r.2))

@[simp] theorem isEmpty_nil : isEmpty ([] : List α) = true := rfl

@[simp] theorem isEmpty_cons (a : α) (q : List α) : isEmpty (a :: q) = false := rfl

@[simp] theorem dequeue_cons (a : α) (q : List α) : dequeue (a :: q) = .ok (a, q) := rfl

@[simp] theorem mem_enqueue {q : List α} {a b : α} : b ∈ enqueue q a ↔ b ∈ q ∨ b = a := by
  simp [enqueue]

theorem perm_enqueue (q : List α) (a : α) : (enqueue q a).Perm (a :: q) :=
  List.perm_append_singleton a q

theorem dequeueRear_concat (q : List α) (a : α) : dequeueRear (q ++ [a]) = some (a, q) := by
  rw [dequeueRear, List.getLast?_concat, List.dropLast_concat]
  rfl

/-- Taking an element by id splits the queue around it. -/
theorem dequeueById_eq_some {idOf : α → Except Fault ℤ} {id : ℤ} :
    ∀ {q : List α} {a : α} {q' : List α}, dequeueById idOf id q = .ok (some (a, q')) →
      idOf a = .ok id ∧ ∃ l r, q = l ++ a :: r ∧ q' = l ++ r
  | [], a, q', h => nomatch h
  | b :: q, a, q', h => by
    obtain ⟨i, hi, h⟩ := Fallible.bind_eq_ok.mp h
    rcases Fallible.ite_eq_ok h with ⟨hid, h⟩ | ⟨-, h⟩
    · cases h
      exact ⟨by rw [hi, hid], [], q, rfl, rfl⟩
    · obtain ⟨r, hr, h⟩ := Fallible.bind_eq_ok.mp h
      obtain ⟨⟨a', q''⟩, rfl, he⟩ := Option.map_eq_some_iff.mp (Except.ok.inj h)
      cases he
      obtain ⟨ha, l, r, rfl, rfl⟩ := dequeueById_eq_some hr
      exact ⟨ha, b :: l, r, rfl, rfl⟩

/-- Where the ids can be read and tell the elements apart, taking an element by its
own id takes that element. -/
theorem dequeueById_self [DecidableEq α] {idOf : α → Except Fault ℤ} {id : ℤ} {a : α} :
    ∀ {q : List α}, (∀ b ∈ q, ∃ i, idOf b = .ok i ∧ (i = id → b = a)) →
      a ∈ q → idOf a = .ok id → dequeueById idOf id q = .ok (some (a, q.erase a))
  | b :: q, hq, ha, hid => by
    obtain ⟨i, hi, hb⟩ := hq b List.mem_cons_self
    rw [dequeueById, hi, Fallible.ok_bind]
    by_cases h : i = id
    · obtain rfl := hb h
      rw [if_pos h, List.erase_cons_head]
    · have hba : b ≠ a := by
        rintro rfl
        exact h (Except.ok.inj (hi.symm.trans hid))
      have ha' : a ∈ q := (List.mem_cons.mp ha).resolve_left fun he => hba he.symm
      rw [if_neg h, dequeueById_self (fun c hc => hq c (List.mem_cons_of_mem _ hc)) ha' hid,
        Fallible.ok_bind, List.erase_cons_tail (by simpa using hba)]
      rfl

/-- Where the ids can be read, looking for an id that is not there returns `NULL`. -/
theorem dequeueById_none {idOf : α → Except Fault ℤ} {id : ℤ} :
    ∀ {q : List α}, (∀ b ∈ q, ∃ i, idOf b = .ok i ∧ i ≠ id) →
      dequeueById idOf id q = .ok none
  | [], _ => rfl
  | b :: q, hq => by
    obtain ⟨i, hi, hne⟩ := hq b List.mem_cons_self
    rw [dequeueById, hi, Fallible.ok_bind, if_neg hne,
      dequeueById_none fun c hc => hq c (List.mem_cons_of_mem _ hc)]
    rfl

/-- `dequeue_by_id` fails only where an id cannot be read. -/
theorem dequeueById_outcome {idOf : α → Except Fault ℤ} {E : Fault → Prop}
    (h : ∀ a, Fallible.Outcome (fun _ => True) E (idOf a)) (id : ℤ) : ∀ q : List α,
    Fallible.Outcome (fun r => ∀ a q', r = some (a, q') → idOf a = .ok id ∧
      ∃ l₁ l₂, q = l₁ ++ a :: l₂ ∧ q' = l₁ ++ l₂) E (dequeueById idOf id q) := by
  intro q
  cases hr : dequeueById idOf id q with
  | ok r =>
    rintro a q' rfl
    exact dequeueById_eq_some hr
  | error e =>
    induction q with
    | nil => exact nomatch hr
    | cons b q ih =>
      have hb := h b
      rw [dequeueById] at hr
      rcases Fallible.bind_eq_error.mp hr with hi | ⟨i, hi, hr⟩
      · exact hb.of_error hi
      · by_cases hid : i = id
        · rw [if_pos hid] at hr
          exact nomatch hr
        · rw [if_neg hid] at hr
          rcases Fallible.bind_eq_error.mp hr with hr | ⟨r, -, hr⟩
          · exact ih hr
          · exact nomatch hr

end Queue

end CpuScheduler
