import CpuScheduler.RR.Mail

/-!
# When the `R` bits are cleared

`quantums_passed` is incremented in four places: when the running process is blocked for a
page, when it finishes, when its quantum is extended, and when it is preempted. In the
first two it stops running, and `RR_algo` increments the counter only if a process is
running. So between two tests of the counter it moves by one at most, and the
test, which asks whether it is a multiple of `k`, misses none
(`CpuScheduler.World.clearings_counted`).
-/

namespace CpuScheduler

/-! ### Multiples -/

section Multiples

variable {k n : ℤ}

/-- The positive multiples of `k` up to `n`. -/
def multiples (k n : ℤ) : List ℤ := (List.range (n / k).toNat).map fun i : ℕ => k * ((i : ℤ) + 1)

theorem length_multiples (k n : ℤ) : (multiples k n).length = (n / k).toNat := by
  rw [multiples, List.length_map, List.length_range]

theorem multiples_zero (k : ℤ) : multiples k 0 = [] := by
  rw [multiples, Int.zero_ediv]
  rfl

/-- One more multiple. -/
theorem multiples_succ (hk : 0 < k) (hn : 0 ≤ n) (h : (n + 1) % k = 0) :
    multiples k (n + 1) = multiples k n ++ [n + 1] := by
  obtain ⟨c, hc⟩ := Int.dvd_of_emod_eq_zero h
  have hdiv : (n + 1) / k = c := by rw [hc, Int.mul_ediv_cancel_left _ hk.ne']
  have hpos : 0 < c := by
    by_contra hle
    have := mul_nonpos_of_nonneg_of_nonpos hk.le (not_lt.mp hle)
    omega
  have hprev : n / k = c - 1 := by
    have hmul : k * (c - 1) = k * c - k := by rw [mul_sub, mul_one]
    refine ((Int.ediv_emod_unique hk).mpr ⟨?_, ?_, ?_⟩ : n / k = c - 1 ∧ n % k = k - 1).1 <;> omega
  obtain ⟨j, rfl⟩ : ∃ j : ℕ, c = j + 1 := ⟨(c - 1).toNat, by omega⟩
  have hj : ((j : ℤ) + 1).toNat = j + 1 := by omega
  have hj' : ((j : ℤ) + 1 - 1).toNat = j := by omega
  rw [multiples, multiples, hdiv, hprev, hj, hj', List.range_succ, List.map_append, hc]
  rfl

/-- No other one. -/
theorem multiples_skip (hk : 0 < k) (h : (n + 1) % k ≠ 0) :
    multiples k (n + 1) = multiples k n := by
  have hlt : n % k + 1 < k := by
    have hle : n % k < k := Int.emod_lt_of_pos n hk
    by_contra hge
    refine h ?_
    have heq : n + 1 = k * (n / k + 1) := by
      have := Int.mul_ediv_add_emod n k
      rw [mul_add, mul_one]
      omega
    rw [heq, Int.mul_emod_right]
  have hdiv : (n + 1) / k = n / k := by
    have := Int.mul_ediv_add_emod n k
    have := Int.emod_nonneg n hk.ne'
    refine ((Int.ediv_emod_unique hk).mpr ⟨?_, ?_, hlt⟩ :
      (n + 1) / k = n / k ∧ (n + 1) % k = n % k + 1).1 <;> omega
  rw [multiples, multiples, hdiv]

end Multiples

namespace RRState

open Fallible Mem

variable {K : Mem → Prop} {P : Params} {clk : Clk} {s s' : RRState} {k n : ℤ}

/-- The test in front of `clear_recent`. -/
def ClearDue (P : Params) (s : RRState) : Prop :=
  P.k > 0 ∧ s.quantumsPassed > 0 ∧ s.quantumsPassed % P.k = 0 ∧ s.quantumsPassed > s.lastPrint

instance (P : Params) (s : RRState) : Decidable (s.ClearDue P) :=
  inferInstanceAs (Decidable (_ ∧ _))

/-- **The call of `clear_recent`**, if there is one. -/
theorem clearIfDue_cases (hs : s.clearIfDue P = .ok s') :
    (s.ClearDue P ∧ ∃ m, s.clearRecent = .ok m ∧ s' = { s with
      toMem := m, lastPrint := s.quantumsPassed, clears := s.clears ++ [s.quantumsPassed] }) ∨
    (¬s.ClearDue P ∧ s' = s) := by
  rw [clearIfDue] at hs
  split_ifs at hs with hdue
  · obtain ⟨s₁, h₁, hs⟩ := bind_eq_ok.mp hs
    obtain ⟨m, hm, h₁⟩ := bind_eq_ok.mp h₁
    obtain rfl := Except.ok.inj h₁
    exact Or.inl ⟨hdue, m, hm, (Except.ok.inj hs).symm⟩
  · exact Or.inr ⟨hdue, (Except.ok.inj hs).symm⟩

/-! ### The counter -/

/-- Outside `RR_algo`, the counter moves when the running process stops running. -/
theorem Turn.quanta (ht : Turn K P clk s s') (hpc : s.pc ≠ .algo) :
    s'.lastPrint = s.lastPrint ∧ s'.clears = s.clears ∧
      ((s'.quantumsPassed = s.quantumsPassed ∧ s'.currProcess = s.currProcess) ∨
        (s'.quantumsPassed = s.quantumsPassed + 1 ∧ s.currProcess ≠ none ∧
          s'.currProcess = none)) := by
  cases ht with
  | algo hpc' => exact absurd hpc' hpc
  | @serve s₁ _ hcur hs =>
    obtain ⟨rq, mq, hf⟩ := fetched_eq clk s
    rw [hf] at hs
    cases hs with
    | keep hd hm hrq => exact ⟨rfl, rfl, Or.inl ⟨rfl, hm.cur⟩⟩
    | block hx hd hf hm hrq => exact ⟨rfl, rfl, Or.inl ⟨rfl, hm.cur⟩⟩
    | switch hp hx hd hf hm hrq =>
      refine ⟨rfl, rfl, Or.inr ⟨rfl, ?_, rfl⟩⟩
      rw [show s.currProcess = _ from hp]
      exact nofun
  | firstScan _ hu | lastScan _ hu =>
    obtain ⟨m, u, b, n, hm, -, rfl⟩ := hu
    exact ⟨rfl, rfl, Or.inl ⟨rfl, hm.cur⟩⟩
  | reap hpc' hcur hx hwait hr =>
    refine ⟨rfl, rfl, Or.inr ⟨rfl, ?_, hr.cur⟩⟩
    rw [hcur]
    exact nofun
  | _ => exact ⟨rfl, rfl, Or.inl ⟨rfl, rfl⟩⟩

/-- `RR_algo` moves it if a process is running. -/
theorem Decides.quanta (hd : Decides K P clk s s') : s'.lastPrint = s.lastPrint ∧
    s'.clears = s.clears ∧
    (s'.quantumsPassed = s.quantumsPassed ∨
      (s'.quantumsPassed = s.quantumsPassed + 1 ∧ s.currProcess ≠ none)) := by
  have hsome : ∀ {p}, s.currProcess = some p → s.currProcess ≠ none := fun hp => by
    rw [hp]
    exact nofun
  cases hd with
  | stay => exact ⟨rfl, rfl, Or.inl rfl⟩
  | extend hp => exact ⟨rfl, rfl, Or.inr ⟨rfl, hsome hp⟩⟩
  | preempt hp hx hdue hwait hu hheld hbefore hd =>
    obtain ⟨m, u, b, n, hm, -, rfl⟩ := hu
    cases hd
    exact ⟨rfl, rfl, Or.inr ⟨rfl, hsome hp⟩⟩
  | dispatch hp hd =>
    cases hd
    exact ⟨rfl, rfl, Or.inl rfl⟩

/-- **The calls of `clear_recent`**, by the value of the counter: the multiples of `k` up
to a value `n`, the one it had at the last test. Since then it has moved by one
at most, and only if nobody is running any more. -/
structure Counted (k : ℤ) (s : RRState) (n : ℤ) : Prop where
  nonneg : 0 ≤ n
  calls : s.clears = multiples k n
  below : s.lastPrint ≤ n
  served : 0 < n → n % k = 0 → s.lastPrint = n
  moved : s.quantumsPassed = n ∨ (s.quantumsPassed = n + 1 ∧ s.currProcess = none)

/-- What the test has to do with the rest of the state. -/
theorem Counted.of_eq (h : Counted k s n) (hq : s'.quantumsPassed = s.quantumsPassed)
    (hcur : s'.currProcess = s.currProcess) (hprint : s'.lastPrint = s.lastPrint)
    (hclears : s'.clears = s.clears) : Counted k s' n where
  nonneg := h.nonneg
  calls := hclears.trans h.calls
  below := hprint ▸ h.below
  served hpos hmod := hprint.trans (h.served hpos hmod)
  moved := by
    rw [hq, hcur]
    exact h.moved

/-- **The test serves the multiple that has been reached**, if one has. -/
theorem Counted.test (h : Counted P.k s n) (hk : 1 ≤ P.k) {s₁ : RRState}
    (hprint : s₁.lastPrint = s.lastPrint) (hclears : s₁.clears = s.clears)
    (hq : s₁.quantumsPassed = s.quantumsPassed ∨
      (s₁.quantumsPassed = s.quantumsPassed + 1 ∧ s.currProcess ≠ none))
    (hs : s₁.clearIfDue P = .ok s') :
    Counted P.k s' s₁.quantumsPassed ∧ s'.quantumsPassed = s₁.quantumsPassed := by
  have hstep : s₁.quantumsPassed = n ∨ s₁.quantumsPassed = n + 1 := by
    rcases h.moved with hn | ⟨hn, hcur⟩
    · rcases hq with hq | ⟨hq, -⟩
      · exact Or.inl (hq.trans hn)
      · exact Or.inr (by rw [hq, hn])
    · -- nobody is running, so `RR_algo` does not count
      rcases hq with hq | ⟨-, hne⟩
      · exact Or.inr (hq.trans hn)
      · exact absurd hcur hne
  have hn := h.nonneg
  have hbelow := h.below
  rcases clearIfDue_cases hs with ⟨⟨-, hpos, hmod, hlt⟩, m, -, rfl⟩ | ⟨hnot, rfl⟩
  · rcases hstep with hsame | hnext
    · -- no quantum has passed since the last test
      rw [hsame] at hpos hmod
      have := h.served hpos hmod
      omega
    · refine ⟨⟨by omega, ?_, le_rfl, fun _ _ => rfl, Or.inl rfl⟩, rfl⟩
      show s₁.clears ++ [s₁.quantumsPassed] = multiples P.k s₁.quantumsPassed
      rw [hnext] at hmod ⊢
      rw [hclears, h.calls, multiples_succ (by omega) hn hmod]
  · rcases hstep with hsame | hnext
    · rw [hsame]
      refine ⟨⟨hn, hclears.trans h.calls, by omega, fun hpos hmod => ?_, Or.inl hsame⟩, rfl⟩
      exact hprint.trans (h.served hpos hmod)
    · have hmod : (n + 1) % P.k ≠ 0 := fun hmod =>
        hnot ⟨by omega, by omega, by rw [hnext]; exact hmod, by omega⟩
      rw [hnext]
      refine ⟨⟨by omega, ?_, by omega, fun _ hz => absurd hz hmod, Or.inl hnext⟩, rfl⟩
      rw [hclears, h.calls, multiples_skip (by omega) hmod]

/-- What `RR_algo` does to the counter. -/
theorem algoFrom_quanta (hheld : Held (fun _ => True) s [] s.currProcess.toList) {s₁ : RRState}
    (h₁ : s.algoFrom P clk = .ok s₁) : s₁.lastPrint = s.lastPrint ∧ s₁.clears = s.clears ∧
      (s₁.quantumsPassed = s.quantumsPassed ∨
        (s₁.quantumsPassed = s.quantumsPassed + 1 ∧ s.currProcess ≠ none)) := by
  rw [algoFrom] at h₁
  split_ifs at h₁ with hpos
  · have hd := (rrAlgo_outcome (P := P) kept_true hheld fun _ _ _ => trivial).of_ok h₁
    exact hd.2.quanta
  · obtain rfl := Except.ok.inj h₁
    exact ⟨rfl, rfl, Or.inl rfl⟩

/-- **The phase of `RR_algo`** is `RR_algo`, the test, and the permit. -/
theorem algo_cases (hs : goto .last (s.algo P clk) = .ok s') : ∃ s₁ s₂,
    s.algoFrom P clk = .ok s₁ ∧ s₁.clearIfDue P = .ok s₂ ∧ s'.toMem = s₂.toMem ∧
      s'.quantumsPassed = s₂.quantumsPassed ∧ s'.lastPrint = s₂.lastPrint ∧
      s'.clears = s₂.clears ∧ s'.pc = .last := by
  obtain ⟨s₃, h₃, hs⟩ := bind_eq_ok.mp hs
  obtain rfl := Except.ok.inj hs
  obtain ⟨s₁, h₁, h₃⟩ := bind_eq_ok.mp h₃
  obtain ⟨s₂, h₂, h₃⟩ := bind_eq_ok.mp h₃
  obtain rfl := Except.ok.inj h₃
  refine ⟨s₁, s₂, h₁, h₂, ?_⟩
  rw [permit]
  split_ifs <;> exact ⟨rfl, rfl, rfl, rfl, rfl⟩

theorem Counted.algo (h : Counted P.k s n) (hk : 1 ≤ P.k)
    (hheld : Held (fun _ => True) s [] s.currProcess.toList)
    (hs : goto .last (s.algo P clk) = .ok s') :
    Counted P.k s' s'.quantumsPassed ∧ s'.pc = .last := by
  obtain ⟨s₁, s₂, h₁, h₂, hm, hq, hprint, hclears, hpc⟩ := algo_cases hs
  obtain ⟨hprint₁, hclears₁, hq₁⟩ := algoFrom_quanta hheld h₁
  obtain ⟨hc, hsame⟩ := h.test hk hprint₁ hclears₁ hq₁ h₂
  have hcur : s'.currProcess = s₂.currProcess := congrArg Mem.currProcess hm
  rw [hq, hsame]
  exact ⟨hc.of_eq hq hcur hprint hclears, hpc⟩

end RRState

namespace World

open RRState

variable {P : Params} {w w' : World} {e : Event}

/-! ### The runs -/

/-- **What a step does about the `R` bits.** -/
inductive Clears (P : Params) (w w' : World) : Event → Prop
  /-- After `RR_algo`, `clear_recent` is called, and that is the last thing done to the memory. -/
  | called {clk : Clk} {t : ℤ} {s : RRState} (hpc : w.rr.pc = .algo)
      (halgo : w.rr.algoFrom P clk = .ok s) (hclear : s.clearRecent = .ok w'.rr.toMem)
      (hcalls : w'.rr.clears = w.rr.clears ++ [s.quantumsPassed]) : Clears P w w' (.sched clk t)
  /-- It is not called, and the memory is that of `RR_algo`. -/
  | spared {clk : Clk} {t : ℤ} {s : RRState} (hpc : w.rr.pc = .algo)
      (halgo : w.rr.algoFrom P clk = .ok s) (hkeep : w'.rr.toMem = s.toMem)
      (hcalls : w'.rr.clears = w.rr.clears) : Clears P w w' (.sched clk t)
  /-- At the other cuts, it is never called. -/
  | other {e : Event} (hpc : ∀ clk t, e = .sched clk t → w.rr.pc ≠ .algo)
      (hcalls : w'.rr.clears = w.rr.clears) : Clears P w w' e

/-- **The calls that are recorded are those that are made.** -/
theorem Step.clears (hst : Step P e w w') (hi : Inv (fun _ => True) (fun _ => True) w) :
    Clears P w w' e := by
  have hother : ∀ e' : Event, (∀ clk t, e' ≠ .sched clk t) → w'.rr.clears = w.rr.clears →
      Clears P w w' e' := fun e' he hc => .other (fun clk t h => absurd h (he clk t)) hc
  cases hst with
  | @sched _ clk s t _ hs =>
    by_cases hpc : w.rr.pc = .algo
    · rw [phase, hpc] at hs
      obtain ⟨s₁, s₂, h₁, h₂, hm, -, -, hclears, -⟩ := algo_cases hs
      obtain ⟨-, hclears₁, -⟩ := algoFrom_quanta hi.held h₁
      rcases clearIfDue_cases h₂ with ⟨-, m, hclear, rfl⟩ | ⟨-, rfl⟩
      · refine .called hpc h₁ (hclear.trans (congrArg _ hm.symm)) ?_
        rw [← hclears₁]
        exact hclears
      · exact .spared hpc h₁ hm (hclears.trans hclears₁)
    · refine .other (fun _ _ _ => hpc) ?_
      exact ((hi.turn hs).quanta hpc).2.1
  | child hs =>
    refine hother _ (by simp) ?_
    obtain ⟨c, -, -, -, ⟨-, rfl⟩ | ⟨-, -, rfl⟩⟩ := childStep_cases hs <;> rfl
  | _ => exact hother _ (by simp) rfl

/-- Whether the gate of `context_switch_until` was open in the iteration: not known at its
beginning, and known when `RR_algo` is called. -/
def opening (w : World) (o : Bool) : Event → Bool
  | .sched _ _ =>
    match w.rr.pc with
    | .requests => false
    | .algo => true
    | _ => o
  | _ => o

/-- A state of the system, and whether the gate was open. -/
structure Clearings where
  world : World
  opened : Bool

/-- The runs, with what is known about the gate. -/
def clearings (P : Params) : TransitionSystem Clearings where
  init a := (system P).init a.world ∧ a.opened = false
  step a b := ∃ e, Step P e a.world b.world ∧ b.opened = opening a.world a.opened e

/-- The count, and what the end of an iteration with an open gate knows about it. -/
structure Tallied (P : Params) (a : Clearings) (n : ℤ) : Prop
    extends Counted P.k a.world.rr n where
  /-- Inside a turn, up to `RR_algo`, the gate is not known to be open. -/
  unknown : a.world.rr.pc.inTurn = true → a.world.rr.pc ≠ .requests → a.opened = false
  tested : a.opened = true → a.world.rr.pc.inTurn = false → a.world.rr.quantumsPassed = n

theorem clearings_reachable {a : Clearings} (h : (clearings P).Reachable a) :
    (system P).Reachable a.world := by
  refine TransitionSystem.Reachable.map (T := system P) (f := Clearings.world) ?_ ?_ h
  · rintro a ⟨ha, -⟩
    exact ha
  · rintro a b - ⟨e, hst, -⟩
    exact Or.inl ⟨e, hst⟩

/-- A step that is not one of the scheduler. -/
theorem Tallied.of_eq {a b : Clearings} {n : ℤ} (h : Tallied P a n)
    (hq : b.world.rr.quantumsPassed = a.world.rr.quantumsPassed)
    (hcur : b.world.rr.currProcess = a.world.rr.currProcess)
    (hprint : b.world.rr.lastPrint = a.world.rr.lastPrint)
    (hclears : b.world.rr.clears = a.world.rr.clears) (hpc : b.world.rr.pc = a.world.rr.pc)
    (hopened : b.opened = a.opened) : Tallied P b n where
  toCounted := h.toCounted.of_eq hq hcur hprint hclears
  unknown := by
    rw [hpc, hopened]
    exact h.unknown
  tested := by
    rw [hpc, hopened, hq]
    exact h.tested

/-- Between two turns. -/
theorem turn_outside {K : Mem → Prop} {clk : Clk} {s s' : RRState} (ht : Turn K P clk s s')
    (hin : s.pc.inTurn = false) :
    s'.quantumsPassed = s.quantumsPassed ∧ (s'.pc.inTurn = true → s'.pc = .requests) := by
  cases ht with
  | exit hpc _ _ _ _ => exact ⟨rfl, nofun⟩
  | spin hpc => exact ⟨rfl, fun h => nomatch hin.symm.trans h⟩
  | tick hpc hnew => exact ⟨rfl, fun _ => rfl⟩
  | lastScan hpc hu =>
    obtain ⟨m, u, b, n, hm, -, rfl⟩ := hu
    exact ⟨rfl, nofun⟩
  | _ hpc => exact nomatch (hpc ▸ hin)

/-- **A step of the scheduler keeps the tally.** -/
theorem Tallied.sched {a b : Clearings} {n : ℤ} {clk : Clk} {s : RRState} {t : ℤ}
    (h : Tallied P a n) (hk : 1 ≤ P.k) (hi : Inv (fun _ => True) (fun _ => True) a.world)
    (hs : a.world.rr.phase P clk = .ok s) (hw : b.world.rr = s)
    (hopened : b.opened = opening a.world a.opened (.sched clk t)) : ∃ n, Tallied P b n := by
  have ht := hi.turn hs
  by_cases hpc : a.world.rr.pc = .algo
  · rw [phase, hpc] at hs
    obtain ⟨hc, hpc'⟩ := h.toCounted.algo hk hi.held hs
    refine ⟨s.quantumsPassed, hw ▸ hc, fun hin => ?_, fun _ _ => by rw [hw]⟩
    rw [hw, hpc'] at hin
    cases hin
  · obtain ⟨hprint, hclears, hmove⟩ := ht.quanta hpc
    have hopen : a.world.rr.pc.inTurn = true → b.opened = false := by
      intro hin
      rw [hopened, opening]
      cases hpc' : a.world.rr.pc
      case requests => rfl
      case algo => exact absurd hpc' hpc
      case top | last | exited => exact absurd ((hpc' ▸ hin)) (by rintro ⟨⟩)
      all_goals exact h.unknown (by rw [hpc']; rfl) (by rw [hpc']; simp)
    have hkeep : a.world.rr.pc.inTurn = false → b.opened = a.opened := by
      intro hin
      rw [hopened, opening]
      cases hpc' : a.world.rr.pc
      case top | last | exited => rfl
      all_goals exact absurd ((hpc' ▸ hin)) (by rintro ⟨⟩)
    refine ⟨n, ⟨h.nonneg, ?_, ?_, ?_, ?_⟩, ?_, ?_⟩
    · rw [hw, hclears]
      exact h.calls
    · rw [hw, hprint]
      exact h.below
    · rw [hw, hprint]
      exact h.served
    · -- the counter moves when the running process stops running
      rw [hw]
      rcases hmove with ⟨hq, hcur⟩ | ⟨hq, hsome, hnone⟩
      · rw [hq, hcur]
        exact h.moved
      · rcases h.moved with hn | ⟨-, hcur⟩
        · exact Or.inr ⟨by rw [hq, hn], hnone⟩
        · exact absurd hcur hsome
    · rw [hw]
      intro hin' hne
      cases hin : a.world.rr.pc.inTurn with
      | true => exact hopen hin
      | false => exact absurd ((turn_outside ht hin).2 hin') hne
    · rw [hw]
      intro ho _
      cases hin : a.world.rr.pc.inTurn with
      | true => exact absurd ((hopen hin).symm.trans ho) (by simp)
      | false => rw [(turn_outside ht hin).1, h.tested (hkeep hin ▸ ho) hin]

theorem clearings_tallied (hk : 1 ≤ P.k) {a : Clearings} (h : (clearings P).Reachable a) :
    ∃ n, Tallied P a n := by
  induction h with
  | @init a ha =>
    obtain ⟨⟨l, t, -, -, -, hw⟩, hopened⟩ := ha
    refine ⟨0, ⟨le_rfl, ?_, ?_, fun h => absurd h (lt_irrefl 0), Or.inl ?_⟩, ?_, ?_⟩
    · rw [hw, multiples_zero]
      rfl
    · rw [hw]
      exact (by decide : (-1 : ℤ) ≤ 0)
    · rw [hw]
      rfl
    · exact fun _ _ => hopened
    · exact fun ho => absurd (hopened.symm.trans ho) (by simp)
  | @step a b ha hst ih =>
    obtain ⟨n, hn⟩ := ih
    obtain ⟨e, hst, hopened⟩ := hst
    have hi := reachable_inv (clearings_reachable ha)
    generalize hw : b.world = w' at hst
    cases hst with
    | @sched _ clk s t _ hs => exact hn.sched hk hi hs (congrArg World.rr hw) hopened
    | @child _ p s hs =>
      obtain ⟨-, -, hmem⟩ := childStep_held hs hi.held
      have hrr : b.world.rr = s := congrArg World.rr hw
      refine ⟨n, hn.of_eq ?_ ?_ ?_ ?_ ?_ hopened⟩ <;> rw [hrr]
      case refine_2 => rw [hmem]
      all_goals
        obtain ⟨c, -, -, -, ⟨-, rfl⟩ | ⟨-, -, rfl⟩⟩ := childStep_cases hs <;> rfl
    | _ => refine ⟨n, hn.of_eq ?_ ?_ ?_ ?_ ?_ hopened⟩ <;> rw [hw] <;> rfl

/-- **The `R` bits are cleared once in `k` quanta**: at the end of every iteration in which the
gate was open, the values of the counter at which `clear_recent` has been called are the
multiples of `k` it has reached, each of them once. What is recorded as a call is one. -/
theorem clearings_counted (hk : 1 ≤ P.k) {a : Clearings} (h : (clearings P).Reachable a) :
    (∀ e w', Step P e a.world w' → Clears P a.world w' e) ∧
    (a.world.rr.pc = .last ∨ a.world.rr.pc = .top → a.opened = true →
      a.world.rr.clears = multiples P.k a.world.rr.quantumsPassed ∧
      (a.world.rr.clears.length : ℤ) = a.world.rr.quantumsPassed / P.k) := by
  refine ⟨fun e w' hst => hst.clears (reachable_inv (clearings_reachable h)), fun hend hopen => ?_⟩
  obtain ⟨n, hn⟩ := clearings_tallied hk h
  have hin : a.world.rr.pc.inTurn = false := by
    rcases hend with hpc | hpc <;> rw [hpc] <;> rfl
  rw [hn.calls, hn.tested hopen hin]
  refine ⟨rfl, ?_⟩
  rw [length_multiples, Int.toNat_of_nonneg (Int.ediv_nonneg hn.nonneg (by omega))]

theorem exists_clearings (h : (system P).Reachable w) :
    ∃ a, (clearings P).Reachable a ∧ a.world = w := by
  induction h with
  | @init w h => exact ⟨⟨w, false⟩, .init ⟨h, rfl⟩, rfl⟩
  | @step w w' _ hst ih =>
    obtain ⟨e, hst⟩ := hst
    obtain ⟨a, ha, rfl⟩ := ih
    exact ⟨⟨w', opening a.world a.opened e⟩, ha.step ⟨e, hst, rfl⟩, rfl⟩

/-- A fault, two preemptions, a finish and two extensions: the counter is 6, and the bits have been
cleared at 2, 4 and 6. The last call is made in the last step. -/
theorem clearings_counted_woken : ∃ (a : Clearings) (w : World),
    a.world.rr.clears = [2, 4] ∧ w.rr.quantumsPassed = 6 ∧ w.rr.clears = [2, 4, 6] ∧
    Clears threeParams a.world w (.sched (readings 14 15) 15) ∧
    w.rr.clears = multiples 2 w.rr.quantumsPassed ∧
    (w.rr.clears.length : ℤ) = w.rr.quantumsPassed / 2 := by
  have hrun : ((playAll threeParams (start threeAtOnce 1) wokenRun).map fun w =>
      (w.rr.pc, w.rr.clears)) = some (.algo, [2, 4]) := by
    decide +kernel
  have hrun' : ((playAll threeParams (start threeAtOnce 1) wokenRun).bind fun w =>
      w.play threeParams (.sched 14 15)).map (fun w => (w.rr.pc, w.rr.quantumsPassed,
        w.rr.clears)) = some (.last, 6, [2, 4, 6]) := by
    decide +kernel
  obtain ⟨w, hw, he⟩ := Option.map_eq_some_iff.mp hrun
  obtain ⟨hpc, hbefore⟩ := Prod.mk.inj he
  rw [hw, Option.bind_some] at hrun'
  obtain ⟨w', hw', he'⟩ := Option.map_eq_some_iff.mp hrun'
  simp only [Prod.mk.injEq] at he'
  obtain ⟨hpc', hq, hclears⟩ := he'
  have hstart : (system threeParams).Reachable (start threeAtOnce 1) :=
    .init ⟨_, 1, workload_threeAtOnce, fun _ _ => trivial, by decide, rfl⟩
  obtain ⟨a, ha, rfl⟩ := exists_clearings (playAll_reachable hstart hw)
  have hopen : opening a.world a.opened (.sched (readings 14 15) 15) = true := by
    rw [opening, hpc]
  have hk : 1 ≤ threeParams.k := by decide
  have hstep : Step threeParams (.sched (readings 14 15) 15) a.world w' := play_step hw'
  let b : Clearings := ⟨w', opening a.world a.opened (.sched (readings 14 15) 15)⟩
  have hb : (clearings threeParams).Reachable b := ha.step ⟨_, hstep, rfl⟩
  exact ⟨a, w', hbefore, hq, hclears, (clearings_counted hk ha).1 _ _ hstep,
    (clearings_counted hk hb).2 (Or.inl hpc') hopen⟩

end World

end CpuScheduler
