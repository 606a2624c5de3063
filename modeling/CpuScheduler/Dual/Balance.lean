import CpuScheduler.Lib.Halting
import CpuScheduler.Dual.Basic

/-!
# Balancing two CPUs

What stealing is for, without the parties and their messages: each CPU has some work that
cannot be moved and a list of processes that can, and while the work of the two differs by more
than a bound, the last process of the CPU with more work goes to the other one
(`CpuScheduler.Dual.Balance.step`).

Moving a process of size `x` changes the gap by `2 * x`. As long as the same CPU has too much,
its list gets shorter. But when the gap was larger than the bound and is now larger in the other
direction, the process that has just been moved is the last one of the other CPU, and goes back.
So the moves come to an end exactly when no process tips the scales
(`CpuScheduler.Dual.Balance.dom_iff`).
-/

namespace CpuScheduler

namespace Dual

open StateTransition Halting

/-- The work of the two CPUs: of the running process, and of each of the ready ones. -/
@[ext] structure Balance where
  running : Cpu → ℤ
  ready : Cpu → List ℤ

namespace Balance

variable {M x : ℤ} {b b' : Balance} {c : Cpu} {l r : List ℤ}

def total (b : Balance) (c : Cpu) : ℤ := b.running c + (b.ready c).sum

/-- By how much the work of the two differs, and who has more. -/
def gap (b : Balance) : ℤ := |b.total .one - b.total .two|

def heavy (b : Balance) : Cpu := if b.total .one > b.total .two then .one else .two

/-- A process goes from a CPU to the other one. -/
def moved (b : Balance) (c : Cpu) (l : List ℤ) (x : ℤ) : Balance :=
  { b with ready := Function.update (Function.update b.ready c l) c.other (b.ready c.other ++ [x]) }

/-- **One move**, if the difference is too large and there is a process that can be moved. -/
def step (M : ℤ) (b : Balance) : Option Balance :=
  if b.gap > M then
    (Queue.dequeueRear (b.ready b.heavy)).map fun r => b.moved b.heavy r.2 r.1
  else none

/-- The processes that can be moved have work to do. -/
def Positive (b : Balance) : Prop := ∀ c, ∀ x ∈ b.ready c, 0 < x

/-- **A process tips the scales**: when those behind it have been moved the difference is still
too large, and when it has been moved as well it is too large in the other direction. -/
def Tips (M : ℤ) (b : Balance) : Prop :=
  ∃ l x r, b.ready b.heavy = l ++ x :: r ∧ b.gap - 2 * r.sum > M ∧ b.gap - 2 * (r.sum + x) < -M

/-! ### The gap -/

theorem gap_eq (b : Balance) : b.gap = b.total b.heavy - b.total b.heavy.other := by
  rw [gap, heavy]
  split_ifs with h
  · exact abs_of_pos (by omega)
  · change _ = b.total .two - b.total .one
    rw [abs_sub_comm]
    exact abs_of_nonneg (by omega)

/-- Who has more has the larger total. -/
theorem heavy_eq (h : b.total c.other < b.total c) : b.heavy = c := by
  rw [heavy]
  cases c
  · exact if_pos h
  · exact if_neg (not_lt.mpr h.le)

theorem gap_eq_abs (b : Balance) (c : Cpu) : b.gap = |b.total c - b.total c.other| := by
  cases c
  · rfl
  · exact abs_sub_comm _ _

/-! ### A move -/

@[simp] theorem moved_ready_self : (b.moved c l x).ready c = l := by
  change Function.update (Function.update b.ready c l) c.other _ c = l
  rw [Function.update_of_ne c.other_ne.symm, Function.update_self]

@[simp] theorem moved_ready_other : (b.moved c l x).ready c.other = b.ready c.other ++ [x] :=
  Function.update_self ..

theorem moved_total_self (hl : b.ready c = l ++ [x]) :
    (b.moved c l x).total c = b.total c - x := by
  rw [total, total, moved_ready_self, hl, List.sum_append, List.sum_singleton]
  change b.running c + l.sum = _
  omega

theorem moved_total_other : (b.moved c l x).total c.other = b.total c.other + x := by
  rw [total, total, moved_ready_other, List.sum_append, List.sum_singleton]
  change b.running c.other + _ = _
  omega

/-- Moving a process there and back. -/
theorem moved_moved (hl : b.ready c = l ++ [x]) :
    (b.moved c l x).moved c.other (b.ready c.other) x = b := by
  refine Balance.ext rfl (funext fun d => ?_)
  rcases c.eq_or d with rfl | rfl
  · have h := moved_ready_other (b := b.moved d l x) (c := d.other) (l := b.ready d.other) (x := x)
    rw [Cpu.other_other] at h
    rw [h, moved_ready_self, hl]
  · exact moved_ready_self

theorem Positive.moved (hb : b.Positive) (hl : b.ready c = l ++ [x]) :
    (b.moved c l x).Positive := by
  have hx : ∀ y ∈ l ++ [x], 0 < y := hl ▸ hb c
  intro d
  rcases c.eq_or d with rfl | rfl
  · rw [moved_ready_self]
    exact fun y hy => hx y (List.mem_append_left _ hy)
  · rw [moved_ready_other]
    intro y hy
    rcases List.mem_append.mp hy with hy | hy
    · exact hb _ y hy
    · exact hx y (List.mem_append_right _ hy)

theorem step_of_concat (hM : b.gap > M) (hl : b.ready b.heavy = l ++ [x]) :
    step M b = some (b.moved b.heavy l x) := by
  rw [step, if_pos hM, hl, Queue.dequeueRear_concat]
  rfl

theorem step_of_nil (hl : b.ready b.heavy = []) : step M b = none := by
  rw [step, hl]
  exact ite_eq_right_iff.mpr fun _ => rfl

theorem step_of_le (hM : b.gap ≤ M) : step M b = none := if_neg (not_lt.mpr hM)

/-- **When the moves stop**: the difference is small enough, or there is nothing to move. -/
theorem step_eq_none_iff : step M b = none ↔ b.gap ≤ M ∨ b.ready b.heavy = [] := by
  constructor
  · intro h
    rcases List.eq_nil_or_concat (b.ready b.heavy) with hl | ⟨l, x, hl⟩
    · exact Or.inr hl
    · rw [List.concat_eq_append] at hl
      refine Or.inl (not_lt.mp fun hM => ?_)
      rw [step_of_concat hM hl] at h
      exact nomatch h
  · rintro (hM | hl)
    · exact step_of_le hM
    · exact step_of_nil hl

/-! ### Coming to an end -/

/-- The processes that can be moved, up to the last one. -/
theorem tips_iff_of_concat (hl : b.ready b.heavy = l ++ [x]) :
    b.Tips M ↔ (b.gap > M ∧ b.gap - 2 * x < -M) ∨ ∃ l' y r, l = l' ++ y :: r ∧
      b.gap - 2 * x - 2 * r.sum > M ∧ b.gap - 2 * x - 2 * (r.sum + y) < -M := by
  rw [Tips, hl]
  constructor
  · rintro ⟨l', y, r, hr, hgt, hlt⟩
    rcases List.eq_nil_or_concat r with rfl | ⟨r', z, rfl⟩
    · obtain ⟨-, hxy⟩ := List.append_inj' hr rfl
      obtain rfl : x = y := List.head_eq_of_cons_eq hxy
      simp only [List.sum_nil] at hgt hlt
      exact Or.inl ⟨by omega, by omega⟩
    · rw [List.concat_eq_append, ← List.cons_append, ← List.append_assoc] at hr
      obtain ⟨hl', hz⟩ := List.append_inj' hr rfl
      obtain rfl : x = z := List.head_eq_of_cons_eq hz
      rw [List.concat_eq_append, List.sum_append, List.sum_singleton] at hgt hlt
      exact Or.inr ⟨l', y, r', hl', by omega, by omega⟩
  · rintro (⟨hgt, hlt⟩ | ⟨l', y, r, rfl, hgt, hlt⟩)
    · exact ⟨l, x, [], rfl, by rw [List.sum_nil]; omega, by rw [List.sum_nil]; omega⟩
    · refine ⟨l', y, r ++ [x], by rw [List.append_assoc, List.cons_append], ?_, ?_⟩
      · rw [List.sum_append, List.sum_singleton]
        omega
      · rw [List.sum_append, List.sum_singleton]
        omega

/-- Nothing tips the scales where they are even. -/
theorem not_tips_of_le (hb : b.Positive) (hM : b.gap ≤ M) : ¬b.Tips M := by
  rintro ⟨l, x, r, hl, hgt, -⟩
  have hr : 0 ≤ r.sum := List.sum_nonneg fun y hy =>
    (hb _ y (hl ▸ List.mem_append_right _ (List.mem_cons_of_mem x hy))).le
  omega

/-- **The moves come to an end exactly when no process tips the scales.** -/
theorem dom_iff (hM : 0 ≤ M) (hb : b.Positive) : (eval (step M) b).Dom ↔ ¬b.Tips M := by
  -- by induction on the number of processes that can be moved from the CPU that has more
  induction hn : (b.ready b.heavy).length generalizing b with
  | zero =>
    have hl := List.length_eq_zero_iff.mp hn
    refine iff_of_true (dom_of_none (step_of_nil hl)) ?_
    rintro ⟨l, x, r, h, -⟩
    rw [hl] at h
    exact absurd h.symm (List.append_ne_nil_of_right_ne_nil l (List.cons_ne_nil x r))
  | succ n ih =>
    rcases le_or_gt b.gap M with hle | hgt
    · exact iff_of_true (dom_of_none (step_of_le hle)) (not_tips_of_le hb hle)
    obtain ⟨l, x, hl⟩ : ∃ l x, b.ready b.heavy = l ++ [x] := by
      rcases List.eq_nil_or_concat (b.ready b.heavy) with h | ⟨l, x, h⟩
      · rw [h] at hn
        exact nomatch hn
      · exact ⟨l, x, by rw [h, List.concat_eq_append]⟩
    have hstep := step_of_concat hgt hl
    have hdiff : (b.moved b.heavy l x).total b.heavy - (b.moved b.heavy l x).total b.heavy.other =
        b.gap - 2 * x := by
      rw [moved_total_self hl, moved_total_other, gap_eq]
      omega
    have hgap : (b.moved b.heavy l x).gap = |b.gap - 2 * x| := by rw [gap_eq_abs _ b.heavy, hdiff]
    have hpos : ∀ y ∈ l, 0 < y := fun y hy => hb _ y (hl ▸ List.mem_append_left _ hy)
    rw [tips_iff_of_concat hl]
    rcases lt_or_ge (b.gap - 2 * x) (-M) with htip | hback
    · -- the process goes back
      have hheavy : (b.moved b.heavy l x).heavy = b.heavy.other :=
        heavy_eq (by rw [Cpu.other_other]; omega)
      have hready : (b.moved b.heavy l x).ready (b.moved b.heavy l x).heavy =
          b.ready b.heavy.other ++ [x] := by rw [hheavy, moved_ready_other]
      have hlarge : (b.moved b.heavy l x).gap > M := by
        rw [hgap, abs_of_neg (by omega)]
        omega
      refine iff_of_false (not_dom_of_cycle hstep ?_) (not_not.mpr (Or.inl ⟨hgt, htip⟩))
      rw [step_of_concat hlarge hready, hheavy, moved_moved hl]
    · rcases le_or_gt (b.gap - 2 * x) M with hend | hmore
      · -- this was the last move
        have hsmall : (b.moved b.heavy l x).gap ≤ M := hgap.trans_le (abs_le.mpr ⟨hback, hend⟩)
        refine iff_of_true ((dom_step_iff hstep).mpr (dom_of_none (step_of_le hsmall))) ?_
        rintro (⟨-, hlt⟩ | ⟨l', y, r, rfl, hgt', -⟩)
        · omega
        · have hr : 0 ≤ r.sum := List.sum_nonneg fun z hz =>
            (hpos z (List.mem_append_right _ (List.mem_cons_of_mem y hz))).le
          omega
      · -- the same CPU has more
        have hheavy : (b.moved b.heavy l x).heavy = b.heavy := heavy_eq (by omega)
        have hlen : ((b.moved b.heavy l x).ready (b.moved b.heavy l x).heavy).length = n := by
          rw [hheavy, moved_ready_self]
          rw [hl, List.length_append, List.length_singleton] at hn
          omega
        rw [dom_step_iff hstep, ih (hb.moved hl) hlen, Tips, hheavy, moved_ready_self, hgap,
          abs_of_nonneg (by omega)]
        refine not_congr ⟨Or.inr, ?_⟩
        rintro (⟨-, hlt⟩ | h)
        · omega
        · exact h

end Balance

end Dual

end CpuScheduler
