import Mathlib.Algebra.Order.Ring.Int
import Mathlib.Data.List.Perm.Basic
import Mathlib.Tactic

/-!
# System V message queues

A message queue holds its messages in the order they were sent. `msgrcv` takes the
first message that its `msgtyp` argument selects:

| `msgtyp` | selected messages |
|---|---|
| `0` | any |
| `t > 0` | those of type `t` |
| `t < 0` | those of the lowest type present that is at most `-t` |

`CpuScheduler.MsgQueue.rcv` is that function for messages of an arbitrary type,
read through `mtype`; it returns `none` where the call would wait (or, with
`IPC_NOWAIT`, fail with `ENOMSG`).
-/

namespace CpuScheduler

namespace MsgQueue

variable {α : Type*} (mtype : α → ℤ)

/-- The lowest message type present that is at most `bound`. -/
def lowest (bound : ℤ) : List α → Option ℤ
  | [] => none
  | m :: q => match lowest bound q with
    | none => if mtype m ≤ bound then some (mtype m) else none
    | some t => if mtype m ≤ bound ∧ mtype m ≤ t then some (mtype m) else some t

/-- Take the first message of type `t` out of a queue. -/
def takeType (t : ℤ) : List α → Option (α × List α)
  | [] => none
  | m :: q => if mtype m = t then some (m, q) else
      (takeType t q).map fun r => (r.1, m :: r.2)

/-- Take the first message out of a queue. -/
def takeAny : List α → Option (α × List α)
  | [] => none
  | m :: q => some (m, q)

/-- Take the first message of the lowest type that is at most `bound`. -/
def takeLowest (bound : ℤ) (q : List α) : Option (α × List α) :=
  (lowest mtype bound q).bind fun t => takeType mtype t q

/-- `msgrcv`. -/
def rcv (msgtyp : ℤ) (q : List α) : Option (α × List α) :=
  if msgtyp = 0 then takeAny q
  else if 0 < msgtyp then takeType mtype msgtyp q
  else takeLowest mtype (-msgtyp) q

variable {mtype}

/-! ### What a receive takes -/

/-- The queue around a message that has been taken out: nothing before it has its
type. -/
theorem takeType_eq_some {t : ℤ} : ∀ {q : List α} {m : α} {q' : List α},
    takeType mtype t q = some (m, q') →
      mtype m = t ∧ ∃ l r, q = l ++ m :: r ∧ q' = l ++ r ∧ ∀ x ∈ l, mtype x ≠ t
  | [], m, q', h => nomatch h
  | a :: q, m, q', h => by
    rw [takeType] at h
    by_cases ha : mtype a = t
    · rw [if_pos ha] at h
      cases h
      exact ⟨ha, [], q, rfl, rfl, fun x hx => nomatch hx⟩
    · rw [if_neg ha] at h
      obtain ⟨⟨m', q''⟩, hq, he⟩ := Option.map_eq_some_iff.mp h
      cases he
      obtain ⟨hm, l, r, rfl, rfl, hl⟩ := takeType_eq_some hq
      refine ⟨hm, a :: l, r, rfl, rfl, fun x hx => ?_⟩
      rcases List.mem_cons.mp hx with rfl | hx
      · exact ha
      · exact hl x hx

/-- A type that is present can be taken. -/
theorem takeType_isSome {t : ℤ} : ∀ {q : List α} {m : α}, m ∈ q → mtype m = t →
    ∃ r, takeType mtype t q = some r
  | a :: q, m, hm, ht => by
    rw [takeType]
    by_cases ha : mtype a = t
    · exact ⟨_, if_pos ha⟩
    · rw [if_neg ha]
      rcases List.mem_cons.mp hm with rfl | hm
      · exact absurd ht ha
      · obtain ⟨r, hr⟩ := takeType_isSome hm ht
        exact ⟨_, by rw [hr]; rfl⟩

/-- No message at or below the bound: nothing to take. -/
theorem lowest_eq_none {b : ℤ} : ∀ {q : List α},
    lowest mtype b q = none ↔ ∀ x ∈ q, b < mtype x
  | [] => by simp [lowest]
  | a :: q => by
    rw [lowest]
    cases hq : lowest mtype b q with
    | none =>
      have ih := lowest_eq_none.mp hq
      by_cases ha : mtype a ≤ b
      · rw [List.forall_mem_cons]
        simp only [if_pos ha, reduceCtorEq, false_iff, not_and]
        exact fun hc => absurd ha (not_le.mpr hc)
      · rw [List.forall_mem_cons]
        simp only [if_neg ha, true_iff]
        exact ⟨not_le.mp ha, ih⟩
    | some t =>
      have ih : ¬∀ x ∈ q, b < mtype x := fun hc => by
        rw [lowest_eq_none.mpr hc] at hq
        exact nomatch hq
      simp only [List.forall_mem_cons]
      constructor
      · intro h
        split at h <;> exact nomatch h
      · rintro ⟨-, h⟩
        exact absurd h ih

/-- The lowest type is the type of some message, at most the bound, and at most the
type of every message. -/
theorem lowest_eq_some {b : ℤ} : ∀ {q : List α} {t : ℤ}, lowest mtype b q = some t →
    t ≤ b ∧ (∃ m ∈ q, mtype m = t) ∧ ∀ x ∈ q, mtype x ≤ b → t ≤ mtype x
  | [], t, h => nomatch h
  | a :: q, t, h => by
    rw [lowest] at h
    cases hq : lowest mtype b q with
    | none =>
      rw [hq] at h
      have hnone := lowest_eq_none.mp hq
      by_cases ha : mtype a ≤ b
      · simp only [if_pos ha, Option.some.injEq] at h
        subst h
        refine ⟨ha, ⟨a, List.mem_cons_self, rfl⟩, fun x hx hxb => ?_⟩
        rcases List.mem_cons.mp hx with rfl | hx
        · exact le_refl _
        · exact absurd hxb (not_le.mpr (hnone x hx))
      · simp [ha] at h
    | some t' =>
      rw [hq] at h
      obtain ⟨hb, ⟨m, hm, hmt⟩, hmin⟩ := lowest_eq_some hq
      by_cases ha : mtype a ≤ b ∧ mtype a ≤ t'
      · simp only [if_pos ha, Option.some.injEq] at h
        subst h
        refine ⟨ha.1, ⟨a, List.mem_cons_self, rfl⟩, fun x hx hxb => ?_⟩
        rcases List.mem_cons.mp hx with rfl | hx
        · exact le_refl _
        · exact le_trans ha.2 (hmin x hx hxb)
      · simp only [if_neg ha, Option.some.injEq] at h
        subst h
        refine ⟨hb, ⟨m, List.mem_cons_of_mem _ hm, hmt⟩, fun x hx hxb => ?_⟩
        rcases List.mem_cons.mp hx with rfl | hx
        · rcases le_total t' (mtype x) with hle | hle
          · exact hle
          · exact absurd ⟨hxb, hle⟩ ha
        · exact hmin x hx hxb

/-- What a receive by priority takes. -/
theorem takeLowest_eq_some {b : ℤ} {q : List α} {m : α} {q' : List α}
    (h : takeLowest mtype b q = some (m, q')) :
    mtype m ≤ b ∧ (∀ x ∈ q, mtype m ≤ mtype x) ∧
      ∃ l r, q = l ++ m :: r ∧ q' = l ++ r ∧ ∀ x ∈ l, mtype x ≠ mtype m := by
  obtain ⟨t, hl, ht⟩ := Option.bind_eq_some_iff.mp h
  obtain ⟨rfl, l, r, hq, hq', hlr⟩ := takeType_eq_some ht
  obtain ⟨htb, -, hmin⟩ := lowest_eq_some hl
  refine ⟨htb, fun x hx => ?_, l, r, hq, hq', hlr⟩
  rcases le_or_gt (mtype x) b with hxb | hxb
  · exact hmin x hx hxb
  · exact le_trans htb (le_of_lt hxb)

/-- **A receive removes one message and keeps the order of the rest.** -/
theorem rcv_eq_some {t : ℤ} {q : List α} {m : α} {q' : List α}
    (h : rcv mtype t q = some (m, q')) : ∃ l r, q = l ++ m :: r ∧ q' = l ++ r := by
  rw [rcv] at h
  split_ifs at h
  · cases q with
    | nil => exact nomatch h
    | cons a q =>
      cases h
      exact ⟨[], q', rfl, rfl⟩
  · obtain ⟨-, l, r, hq, hq', -⟩ := takeType_eq_some h
    exact ⟨l, r, hq, hq'⟩
  · obtain ⟨-, -, l, r, hq, hq', -⟩ := takeLowest_eq_some h
    exact ⟨l, r, hq, hq'⟩

/-- A receive removes exactly one message. -/
theorem perm_of_rcv {t : ℤ} {q : List α} {m : α} {q' : List α}
    (h : rcv mtype t q = some (m, q')) : q.Perm (m :: q') := by
  obtain ⟨l, r, rfl, rfl⟩ := rcv_eq_some h
  exact List.perm_middle

/-- **A receive by priority** takes the oldest message of the lowest type present. -/
theorem rcv_neg_eq_some {b : ℤ} (hb : 0 < b) {q : List α} {m : α} {q' : List α}
    (h : rcv mtype (-b) q = some (m, q')) :
    mtype m ≤ b ∧ (∀ x ∈ q, mtype m ≤ mtype x) ∧
      ∃ l r, q = l ++ m :: r ∧ q' = l ++ r ∧ ∀ x ∈ l, mtype x ≠ mtype m := by
  rw [rcv, if_neg (by omega), if_neg (by omega), neg_neg] at h
  exact takeLowest_eq_some h

/-- **The messages of one type are received in the order they were sent.** -/
theorem filter_of_rcv_neg {b : ℤ} (hb : 0 < b) {q : List α} {m : α} {q' : List α}
    (h : rcv mtype (-b) q = some (m, q')) (t : ℤ) : (q.filter fun x => mtype x = t) =
      (if mtype m = t then [m] else []) ++ q'.filter fun x => mtype x = t := by
  obtain ⟨-, -, l, r, rfl, rfl, hl⟩ := rcv_neg_eq_some hb h
  rw [List.filter_append, List.filter_append, List.filter_cons]
  by_cases ht : mtype m = t
  · -- nothing of this type is in front of the message
    have hnil : (l.filter fun x => mtype x = t) = [] :=
      List.filter_eq_nil_iff.mpr fun x hx => by simpa [ht] using hl x hx
    simp only [ht, decide_true, if_true, hnil, List.nil_append, List.singleton_append]
  · simp only [ht, decide_false, Bool.false_eq_true, if_false, List.nil_append]

/-- A receive by priority waits only while no type at or below the bound is
present. -/
theorem rcv_neg_isSome {b : ℤ} (hb : 0 < b) {q : List α} {x : α} (hx : x ∈ q)
    (hxb : mtype x ≤ b) : ∃ r, rcv mtype (-b) q = some r := by
  rw [rcv, if_neg (by omega), if_neg (by omega), neg_neg]
  cases hl : lowest mtype b q with
  | none => exact absurd (lowest_eq_none.mp hl x hx) (not_lt.mpr hxb)
  | some t =>
    obtain ⟨-, ⟨m, hm, hmt⟩, -⟩ := lowest_eq_some hl
    obtain ⟨r, hr⟩ := takeType_isSome hm hmt
    exact ⟨r, by rw [takeLowest, hl, Option.bind_some, hr]⟩

end MsgQueue

end CpuScheduler
