import CpuScheduler.RR.Slices
import CpuScheduler.RR.Wakeups
import Mathlib.Algebra.BigOperators.Fin
import Mathlib.Algebra.Order.BigOperators.Group.Finset

/-!
# The processor does not stand still

While somebody is unfinished, the processor is used every 22 ticks at least: nothing is executed
in the tick of a context switch, and nothing is executed while everybody is blocked, which lasts
for 20 ticks at most, the delay of a fault that writes a page back
(`CpuScheduler.World.works_busy`). As a process executes for its runtime and no longer, all
those that have been received are finished in a time that is known when the last of them is
received (`CpuScheduler.World.works_makespan`).

The invariant bounds the tick of the loop by the last tick at which something was executed or
received (`CpuScheduler.RRState.Busy`), and the times at which the blocked processes wake up as
well (`CpuScheduler.RRState.Sleepers`).
-/

namespace CpuScheduler

namespace RRState

open Fallible Mem

variable {K : Mem → Prop} {P : Params} {clk : Clk} {s s' : RRState} {p : Ptr} {L L' : ℤ}

/-- The longest time in which nothing is executed: two context switches and the delay of a
fault. -/
def longest : ℤ := 22

/-- Those who are blocked wake up in time. -/
def Sleepers (s : RRState) (L : ℤ) : Prop :=
  ∀ p ∈ s.blockQueue, ∀ x, s.heap p = some x → x.unblockAt ≤ L + longest

/-- **The processor has been used lately**: at the tick `L` a process executed or was
received. -/
structure Busy (s : RRState) (L : ℤ) : Prop where
  past : 0 ≤ L ∧ L ≤ s.now
  begun : s.lastTick = -1 → s.readyQueue = [] ∧ s.contextSwitchUntil ≤ 0 ∧ L = 0
  switch : s.contextSwitchUntil ≤ s.now + 1
  /-- A process has just been taken off the processor. -/
  switching : s.contextSwitchUntil = s.now + 1 → s.now ≤ L + 2
  /-- Somebody is running: he has executed in the last tick, or he was dispatched in it. -/
  inside : s.pc.inTurn = true → s.currProcess ≠ none → s.contextSwitchUntil ≤ s.now ∧
    (s.now ≤ L + 1 ∨ (s.now ≤ L + 2 ∧ s.now < s.nextPreemtionTime))
  waiting : s.pc.inTurn = true → s.currProcess = none → s.currentPCBs ≠ [] → s.now ≤ L + longest
  scanned : s.pc.afterScan = true → s.currProcess = none → s.checked = false → s.now ≤ L + 2
  /-- After the turn he has a permit, has executed, or is being switched to. -/
  between : s.pc.inTurn = false → s.currProcess ≠ none →
    (s.sem = 1 ∧ s.now ≤ L + longest) ∨ s.now ≤ L ∨
      (s.now ≤ L + 1 ∧ s.now + 1 < s.nextPreemtionTime)
  left : s.pc.inTurn = false → s.currProcess = none → s.readyQueue ≠ [] → s.now ≤ L + 2

/-- When nobody is running, everybody is ready or blocked. -/
theorem Custody.idle_places (h : s.Custody [] s.currProcess.toList) (hcur : s.currProcess = none)
    (hp : p ∈ s.currentPCBs) : p ∈ s.readyQueue ∨ p ∈ s.blockQueue := by
  rcases h.mem_iff.mp hp with hl | hc | hq
  · exact absurd hl List.not_mem_nil
  · rw [hcur] at hc
    exact absurd hc List.not_mem_nil
  · exact hq

theorem Sleepers.mono (h : Sleepers s L) (hle : L ≤ L') : Sleepers s L' := fun p hp x hx =>
  (h p hp x hx).trans (add_le_add_left hle _)

theorem demandDelay_le (RAM : Fin 32 → Frame) : demandDelay RAM ≤ 20 := by
  rw [demandDelay]
  split
  · split_ifs <;> decide
  · decide

/-- A phase inside a turn that does not take the processor from anybody. -/
theorem Busy.go (h : Busy s L) (hpc : s.pc.inTurn = true) (hpc' : s'.pc.inTurn = true)
    (hcur : s'.currProcess = s.currProcess) (hnext : s'.nextPreemtionTime = s.nextPreemtionTime)
    (hnow : s'.now = s.now) (hbegun : s'.lastTick ≠ -1)
    (hcsu : s'.contextSwitchUntil = s.contextSwitchUntil ∨ s'.contextSwitchUntil = -1)
    (hpcbs : s'.currentPCBs = s.currentPCBs)
    (hscanned : s'.pc.afterScan = true → s'.currProcess = none → s'.checked = false →
      s'.now ≤ L + 2) : Busy s' L := by
  have hpast := h.past
  have hswitch := h.switch
  refine ⟨by rw [hnow]; exact hpast, fun he => absurd he hbegun, by omega, fun he => ?_,
    fun _ hc => ?_, fun _ hc hne => ?_, hscanned, fun he => ?_, fun he => ?_⟩
  · rcases hcsu with hc | hc
    · have := h.switching (by omega)
      omega
    · omega
  · rw [hcur] at hc
    obtain ⟨hopen, hlate⟩ := h.inside hpc hc
    rw [hnow, hnext]
    exact ⟨by omega, hlate⟩
  · rw [hcur] at hc
    rw [hpcbs] at hne
    rw [hnow]
    exact h.waiting hpc hc hne
  · rw [hpc'] at he
    exact absurd he (by simp)
  · rw [hpc'] at he
    exact absurd he (by simp)

/-- Between two phases of which the first is after the first scan, the flag stays. -/
theorem Busy.flag (h : Busy s L) (hpc : s.pc.afterScan = true)
    (hcur : s'.currProcess = s.currProcess) (hnow : s'.now = s.now)
    (hck : s'.checked = s.checked) :
    s'.pc.afterScan = true → s'.currProcess = none → s'.checked = false → s'.now ≤ L + 2 := by
  intro _ hnone hfalse
  rw [hnow]
  exact h.scanned hpc (hcur ▸ hnone) (hck ▸ hfalse)

/-- The running process is taken off the processor. -/
theorem Busy.free (h : Busy s L) (hpc : s.pc.inTurn = true) (hpc' : s'.pc.inTurn = true)
    (hrun : s.currProcess ≠ none) (hcur : s'.currProcess = none) (hnow : s'.now = s.now)
    (hbegun : s'.lastTick ≠ -1) (hcsu : s'.contextSwitchUntil = s.now + 1) : Busy s' L := by
  have hpast := h.past
  have hlate : s'.now ≤ L + 2 := by
    have := (h.inside hpc hrun).2
    omega
  refine ⟨by rw [hnow]; exact hpast, fun he => absurd he hbegun, by omega, fun _ => hlate,
    fun _ hc => absurd hcur hc, fun _ _ _ => ?_, fun _ _ _ => hlate, fun he => ?_, fun he => ?_⟩
  · rw [longest]
    omega
  · rw [hpc'] at he
    exact absurd he (by simp)
  · rw [hpc'] at he
    exact absurd he (by simp)

/-- A process is received. -/
theorem Busy.receive (h : Busy s L) (hpc : s.pc.inTurn = true) (hpc' : s'.pc.inTurn = true)
    (hcur : s'.currProcess = s.currProcess) (hnow : s'.now = s.now) (hbegun : s'.lastTick ≠ -1)
    (hcsu : s'.contextSwitchUntil = s.contextSwitchUntil) : Busy s' s.now := by
  have hpast := h.past
  have hswitch := h.switch
  refine ⟨⟨by omega, hnow.ge⟩, fun he => absurd he hbegun, by omega, fun _ => by omega,
    fun _ hc => ?_, fun _ _ _ => ?_, fun _ _ _ => by omega, fun he => ?_, fun he => ?_⟩
  · rw [hcur] at hc
    have := (h.inside hpc hc).1
    exact ⟨by omega, Or.inl (by omega)⟩
  · rw [longest]
    omega
  · rw [hpc'] at he
    exact absurd he (by simp)
  · rw [hpc'] at he
    exact absurd he (by simp)

/-- The running process executes. -/
theorem Busy.tick (h : Busy s L) (hpc : s.pc.inTurn = false) (hpc' : s'.pc = s.pc)
    (hrun : s.currProcess ≠ none) (hcur : s'.currProcess = s.currProcess) (hnow : s'.now = s.now)
    (hbegun : s'.lastTick ≠ -1) (hcsu : s'.contextSwitchUntil = s.contextSwitchUntil) :
    Busy s' s.now := by
  have hpast := h.past
  have hswitch := h.switch
  refine ⟨⟨by omega, hnow.ge⟩, fun he => absurd he hbegun, by omega, fun _ => by omega,
    fun he => ?_, fun he => ?_, fun _ _ _ => by omega, fun _ _ => Or.inr (Or.inl hnow.le),
    fun _ hc => absurd (hcur ▸ hc) hrun⟩
  · rw [hpc', hpc] at he
    exact absurd he (by simp)
  · rw [hpc', hpc] at he
    exact absurd he (by simp)

/-- A turn ends. -/
theorem Busy.finish (h : Busy s L) (hpc' : s'.pc.inTurn = false) (hnow : s'.now = s.now)
    (hbegun : s'.lastTick ≠ -1) (hswitch : s'.contextSwitchUntil ≤ s.now + 1)
    (hswitching : s'.contextSwitchUntil = s.now + 1 → s.now ≤ L + 2)
    (hscanned : s'.pc.afterScan = true → s'.currProcess = none → s'.checked = false →
      s.now ≤ L + 2)
    (hbetween : s'.currProcess ≠ none → (s'.sem = 1 ∧ s.now ≤ L + longest) ∨ s.now ≤ L ∨
      (s.now ≤ L + 1 ∧ s.now + 1 < s'.nextPreemtionTime))
    (hleft : s'.currProcess = none → s'.readyQueue ≠ [] → s.now ≤ L + 2) : Busy s' L := by
  refine ⟨by rw [hnow]; exact h.past, fun he => absurd he hbegun, by rw [hnow]; exact hswitch, ?_,
    fun he => ?_, fun he => ?_, ?_, fun _ => ?_, fun _ => ?_⟩
  · rw [hnow]
    exact hswitching
  · rw [hpc'] at he
    exact absurd he (by simp)
  · rw [hpc'] at he
    exact absurd he (by simp)
  · rw [hnow]
    exact hscanned
  · rw [hnow]
    exact hbetween
  · rw [hnow]
    exact hleft

/-- **`RR_algo` in lockstep** does not leave the processor unused. -/
theorem Busy.algo {t : ℤ} (h : Busy s L) (hq : 1 ≤ P.quantum) (ht : Turn K P clk s s')
    (hpc : s.pc = .algo) (hclk : clk = World.readings s.now t)
    (htime : t = if s.Preempting clk then s.now + 1 else s.now)
    (hopen : s.contextSwitchUntil = -1) (hbegun : s.lastTick ≠ -1)
    (hready : s.readyQueue ⊆ s.currentPCBs) : Busy s' L := by
  have hin : s.pc.inTurn = true := by rw [hpc]; rfl
  have hafter : s.pc.afterScan = true := by rw [hpc]; rfl
  have hpast := h.past
  have hread : ∀ x, clk x = if World.afterWait x then t else s.now := fun x => by rw [hclk]; rfl
  have hnx : clk .nextPreemption = t := hread .nextPreemption
  cases ht with
  | @algo s₁ m print cl _ hdec hm _ =>
    have hcur : m.currProcess = s₁.currProcess := hm.cur
    -- the permit is given when no context switch is going on
    have hpermit : ∀ s₂ : RRState, s₂.currProcess ≠ none → s₂.contextSwitchUntil ≤ s₂.now →
        s₂.permit = { s₂ with sem := 1 } := fun s₂ hne hle => by
      rw [permit, if_pos ⟨Option.isSome_iff_ne_none.mpr hne, hle⟩]
    obtain ⟨n, hperm⟩ := permit_eq { s₁ with toMem := m, lastPrint := print, clears := cl }
    have hsem : s₁.currProcess ≠ none → s₁.contextSwitchUntil ≤ s₁.now → n = 1 := by
      intro hne hle
      have := hpermit { s₁ with toMem := m, lastPrint := print, clears := cl } (hcur ▸ hne) hle
      rw [hperm] at this
      exact congrArg sem this
    rw [hperm]
    have hrunning : s.currProcess ≠ none → s.now ≤ L + 2 := fun hne => by
      have := (h.inside hin hne).2
      omega
    rcases hdec with ⟨hpos, hdec⟩ | ⟨hneg, rfl⟩
    · cases hdec with
      | stay hrun hidle =>
        refine h.finish rfl rfl hbegun ?_ (fun he => ?_) (fun _ hc => ?_) (fun hc => Or.inl ?_)
          fun hc hne => ?_
        · show s.contextSwitchUntil ≤ _
          omega
        · have he : s.contextSwitchUntil = s.now + 1 := he
          omega
        · exact h.scanned hafter (hcur ▸ hc)
        · have hc : s.currProcess ≠ none := hcur ▸ hc
          have := hrunning hc
          exact ⟨hsem hc (by omega), by rw [longest]; omega⟩
        · exact absurd (hidle (hcur ▸ hc)) hne
      | @extend p hp hext =>
        have hc : s.currProcess ≠ none := by rw [hp]; simp
        have hle := hrunning hc
        refine h.finish rfl rfl hbegun ?_ (fun _ => hle) (fun _ _ _ => hle) (fun _ => Or.inl ?_)
          fun _ _ => hle
        · show s.contextSwitchUntil ≤ _
          omega
        · refine ⟨hsem hc ?_, by rw [longest]; omega⟩
          show s.contextSwitchUntil ≤ s.now
          omega
      | @preempt p x s₂ _ hp hx hdue hwait hu hheld hbefore hdisp =>
        have hc : s.currProcess ≠ none := by rw [hp]; simp
        have hpre : s.Preempting clk := ⟨hc, hpos, hdue⟩
        rw [if_pos hpre] at htime
        have hdue' : s.nextPreemtionTime ≤ s.now := by
          have := hdue.1
          rwa [hread .preemptDue] at this
        -- it is due, so it was not dispatched in the last tick
        have hle : s.now ≤ L + 1 := by
          rcases (h.inside hin hc).2 with hle | ⟨-, hlt⟩
          · exact hle
          · omega
        have hsw : clk .switchUntil = s.now := hread .switchUntil
        have hle2 : s.now ≤ L + 2 := by omega
        obtain ⟨m', u, b, n, hm', -, rfl⟩ := hu
        cases hdisp with
        | @intro f y m'' rest line hq' _ _ hm'' _ =>
          refine h.finish rfl rfl hbegun ?_ (fun _ => hle2) (fun _ _ _ => hle2)
            (fun _ => Or.inr (Or.inr ⟨hle, ?_⟩)) fun _ _ => hle2
          · show clk .switchUntil + 1 ≤ _
            rw [hsw]
          · show s.now + 1 < clk .nextPreemption + P.quantum
            omega
      | @dispatch s₂ hp hdisp =>
        cases hdisp with
        | @intro f y m' rest line hq' _ _ hm' _ =>
          have hmem : f ∈ s.currentPCBs := hready (hq' ▸ List.mem_cons_self)
          have hle := h.waiting hin hp (List.ne_nil_of_mem hmem)
          have hcur' : m.currProcess = some f := hcur.trans hm'.cur
          refine h.finish rfl rfl hbegun ?_ (fun he => ?_) (fun _ hc => ?_) (fun _ => Or.inl ?_)
            fun hc => ?_
          · show s.contextSwitchUntil ≤ _
            omega
          · have he : s.contextSwitchUntil = s.now + 1 := he
            omega
          · exact absurd (hcur'.symm.trans hc) (by simp)
          · refine ⟨hsem ?_ ?_, hle⟩
            · rw [← hcur, hcur']
              simp
            · show s.contextSwitchUntil ≤ s.now
              omega
          · exact absurd (hcur'.symm.trans hc) (by simp)
    · -- at tick 0 nothing is decided
      refine h.finish rfl rfl hbegun ?_ (fun _ => by omega) (fun _ _ _ => by omega)
        (fun _ => Or.inr (Or.inl (by omega))) fun _ _ => by omega
      show s₁.contextSwitchUntil ≤ _
      omega
  | _ hpc' => exact absurd (hpc.symm.trans hpc') (by simp)

/-! ### How much there is to do -/

/-- The ticks of all processes together. -/
theorem sum_ticksOf {l : List (Ptr × ℤ)} {n : ℕ} (h : ∀ e ∈ l, e.1 < n) :
    ∑ i : Fin n, ticksOf l i = l.length := by
  have hcount : ∀ i : ℕ, (l.countP fun e => e.1 = i) = (l.map Prod.fst : Multiset ℕ).count i := by
    intro i
    rw [Multiset.coe_count, List.count, List.countP_map]
    refine List.countP_congr fun e _ => ?_
    simp
  have hmem : ∀ i ∈ (l.map Prod.fst : Multiset ℕ), i ∈ Finset.range n := by
    intro i hi
    obtain ⟨e, he, rfl⟩ := List.mem_map.mp (Multiset.mem_coe.mp hi)
    exact Finset.mem_range.mpr (h e he)
  have hsum := Multiset.sum_count_eq_card hmem
  rw [Finset.sum_range, Multiset.coe_card, List.length_map] at hsum
  rw [← hsum]
  push_cast
  refine Finset.sum_congr rfl fun i _ => ?_
  rw [ticksOf, hcount]

/-- The runtimes of all processes. -/
def workload (l : List ProcessData) : ℤ := (l.map ProcessData.runtime).sum

/-- **Nobody executes for longer than its runtime.** -/
def Within (s : RRState) : Prop :=
  ∀ (p : Ptr) d, s.admitted[p]? = some d → ticksOf s.executed p ≤ d.runtime

theorem Within.length_le (h : Within s) (hk : Totals L s) :
    (s.executed.length : ℤ) ≤ workload s.admitted := by
  rw [workload, ← Fin.sum_univ_fun_getElem, ← sum_ticksOf (n := s.admitted.length) fun e he =>
    hk.size ▸ hk.known e he]
  exact Finset.sum_le_sum fun i _ => h i _ (List.getElem?_eq_getElem i.2)

end RRState

namespace World

open RRState Mem

variable {P : Params} {w w' : World} {e : Event} {clk : Clk} {s : RRState} {L t : ℤ} {n : ℕ}

/-! ### The runs -/

/-- **Those who are blocked** were running two ticks after `L` at the latest. -/
theorem Busy.sleepers (h : Busy w.rr L) (hs : Sleepers w.rr L) (hst : Step P e w w')
    (hi : Inv (fun _ => True) (fun _ => True) w)
    (hg : Inv (Guarded fun _ _ _ _ => True) Paged w) (hC : Punctual w e) :
    Sleepers w'.rr L := by
  intro p hp y hy
  rcases hst.sleeping hi hg hC hp hy with ⟨hB, x, hx, hu⟩ | ⟨hB, hpc, hu⟩
  · rw [hu]
    exact hs p hB x hx
  · have hrun : w.rr.currProcess ≠ none := by
      generalize hw' : w' = v at hst hp
      cases hst with
      | sched hclk hphase =>
        exact Option.isSome_iff_ne_none.mp ((hi.turn hphase).blocks hB hp).2.1
      | child hchild =>
        obtain ⟨c, -, -, -, ⟨-, rfl⟩ | ⟨-, -, rfl⟩⟩ := childStep_cases hchild
        · exact absurd hp hB
        · exact absurd hp hB
      | _ => exact absurd hp hB
    have := (h.inside (by rw [hpc]; rfl) hrun).2
    have := demandDelay_le w.rr.RAM
    rw [longest]
    omega

/-- When a turn begins, the running process has no permit left. -/
theorem sem_of_prompt (hp : Paced w.rr) (hpc : w.rr.pc = .top) (hrun : w.rr.currProcess ≠ none)
    (hstuck : ∀ p, w.rr.childStep p = none) : w.rr.sem ≠ 1 := by
  intro hone
  obtain ⟨p, hcur⟩ := Option.ne_none_iff_exists'.mp hrun
  obtain ⟨c, hc⟩ := hp.active p hcur
  have hpos := hc.permit
  rw [hpc] at hpos
  rcases stuck hc.child hc.going (hstuck p) with hex | ⟨-, hsem⟩
  · have := hc.exited hex
    have := hpos hone
    omega
  · omega

/-- In front of the first turn, nobody is there. -/
theorem Awake.begun_idle (h : Awake w n) (hpc : w.rr.pc = .top)
    (hcust : w.rr.Custody [] w.rr.currProcess.toList) (hfirst : w.rr.lastTick = -1)
    (hnone : w.rr.currProcess = none) (hnil : w.rr.readyQueue = []) (hnow : 0 ≤ w.rr.now) :
    w.rr.currentPCBs = [] := by
  by_contra hne
  obtain ⟨p, hmem⟩ := List.exists_mem_of_ne_nil _ hne
  rcases hcust.idle_places hnone hmem with hr | hb
  · exact List.ne_nil_of_mem hr hnil
  · rcases h.top hpc with ⟨-, hl⟩ | ⟨-, -, hb'⟩
    · omega
    · exact List.ne_nil_of_mem hb hb'

/-- **A turn begins**: those who are blocked are not late, and those who are ready were not passed
over. -/
theorem Busy.top (h : Busy w.rr L) (hs : Sleepers w.rr L) (haw : Awake w n) (htick : Ticking w)
    (hp : Paced w.rr) (hi : Inv (fun _ => True) (fun _ => True) w) (hpc : w.rr.pc = .top)
    (hprompt : Prompt w (.sched clk t)) (hlock : Lockstep w (.sched clk t))
    (hclk : Readings clk w.clock t) (hnew : clk .now ≠ w.rr.lastTick) :
    Busy { w.rr with now := clk .now, lastTick := clk .now, pc := .requests } L := by
  have hout : w.rr.pc.inTurn = false := by rw [hpc]; rfl
  have hpast := h.past
  have hpos : 0 ≤ clk .now := le_trans htick.nonneg (hclk.2 .now).1
  have hcust := hi.held.toCustody
  have hstuck := hprompt hpc hnew
  rw [Lockstep, hpc] at hlock
  rcases htick.top hpc with ⟨hfirst, hnone⟩ | ⟨hlast, -⟩
  · -- the first turn
    obtain ⟨hnil, hcsu⟩ := h.begun hfirst
    have hempty := haw.begun_idle hpc hcust hfirst hnone hnil (by omega)
    refine ⟨⟨hpast.1, ?_⟩, fun hc => ?_, ?_, fun hc => ?_, fun _ hc => absurd hnone hc,
      fun _ _ hne => absurd hempty hne, fun hc => absurd hc (by simp [Pc.afterScan]),
      fun hc => absurd hc (by simp [Pc.inTurn]), fun hc => absurd hc (by simp [Pc.inTurn])⟩
    · show L ≤ clk .now
      omega
    · have hc : clk .now = -1 := hc
      omega
    · show w.rr.contextSwitchUntil ≤ clk .now + 1
      omega
    · have hc : w.rr.contextSwitchUntil = clk .now + 1 := hc
      omega
  · have hnext : clk .now = w.rr.now + 1 := by
      rcases hlock with ⟨hsame, -⟩ | ⟨hnext, -⟩
      · exact absurd hsame hnew
      · omega
    have hswitch := h.switch
    refine ⟨⟨hpast.1, ?_⟩, fun hc => ?_, ?_, fun hc => ?_, fun _ hrun => ?_, fun _ hnone hne => ?_,
      fun hc => absurd hc (by simp [Pc.afterScan]), fun hc => absurd hc (by simp [Pc.inTurn]),
      fun hc => absurd hc (by simp [Pc.inTurn])⟩
    · show L ≤ clk .now
      omega
    · have hc : clk .now = -1 := hc
      omega
    · show w.rr.contextSwitchUntil ≤ clk .now + 1
      omega
    · have hc : w.rr.contextSwitchUntil = clk .now + 1 := hc
      omega
    · constructor
      · show w.rr.contextSwitchUntil ≤ clk .now
        omega
      · show clk .now ≤ L + 1 ∨ clk .now ≤ L + 2 ∧ clk .now < w.rr.nextPreemtionTime
        rcases h.between hout hrun with ⟨hone, -⟩ | hle | ⟨hle, hlt⟩
        · exact absurd hone (sem_of_prompt hp hpc hrun hstuck)
        · exact Or.inl (by omega)
        · exact Or.inr ⟨by omega, by omega⟩
    · show clk .now ≤ L + longest
      by_cases hready : w.rr.readyQueue = []
      · -- everybody is blocked, and nobody is due yet
        obtain ⟨p, hmem⟩ := List.exists_mem_of_ne_nil _ hne
        have hB : p ∈ w.rr.blockQueue := (hcust.idle_places hnone hmem).resolve_left fun hr =>
          List.ne_nil_of_mem hr hready
        obtain ⟨x, hx, -⟩ := hcust.blocked p hB
        have hwake := hs p hB x hx
        rcases haw.top hpc with ⟨hone, -⟩ | ⟨-, -, hnil⟩
        · have := haw.done hone p hB x hx
          omega
        · rw [hnil] at hB
          exact absurd hB List.not_mem_nil
      · have := h.left hout hnone hready
        rw [longest]
        omega

/-- The last tick at which something happened: the step executes a tick, or receives a
process. -/
def working (w w' : World) (L : ℤ) : ℤ :=
  if w'.rr.executed = w.rr.executed ∧ w'.rr.admitted = w.rr.admitted then L else w.rr.now

/-- **A step of the scheduler.** -/
theorem Busy.sched (h : Busy w.rr L) (hq : 1 ≤ P.quantum) (hs : Sleepers w.rr L)
    (haw : Awake w n) (htick : Ticking w) (hcl : Clocked w.rr) (hp : Paced w.rr)
    (hi : Inv (fun _ => True) (fun _ => True) w) (hprompt : Prompt w (.sched clk t))
    (hlock : Lockstep w (.sched clk t)) (hclk : Readings clk w.clock t)
    (hphase : w.rr.phase P clk = .ok s) :
    Busy s (working w { w with rr := s, clock := t } L) := by
  have ht := hi.turn hphase
  have hcust := hi.held.toCustody
  have hpast := h.past
  have hquiet : ∀ s' : RRState, s'.executed = w.rr.executed → s'.admitted = w.rr.admitted →
      Busy s' L → Busy s' (working w { w with rr := s', clock := t } L) := by
    intro s' hex hadm hb
    rw [working, if_pos ⟨hex, hadm⟩]
    exact hb
  have hbegun : w.rr.pc ≠ .top → w.rr.pc ≠ .exited → w.rr.lastTick ≠ -1 := fun htop hex => by
    have := (hcl.now htop hex).2
    omega
  by_cases halgo : w.rr.pc = .algo
  · have hlock' := hlock
    rw [Lockstep, halgo] at hlock'
    have hready : w.rr.readyQueue ⊆ w.rr.currentPCBs := fun p hp =>
      hcust.mem_iff.mpr (Or.inr (Or.inr (Or.inl hp)))
    have hadm : s.admitted = w.rr.admitted := by
      cases ht with
      | @algo s₁ m print cl _ hd _ _ =>
        obtain ⟨k, hperm⟩ := permit_eq { s₁ with toMem := m, lastPrint := print, clears := cl }
        rw [hperm]
        rcases hd with ⟨-, hd⟩ | ⟨-, rfl⟩
        · obtain ⟨m, r, b, n, t, u, k, rt, log, ch, c, rfl⟩ := hd.frame
          rfl
        · rfl
      | _ hpc => exact absurd (halgo.symm.trans hpc) (by simp)
    refine hquiet s ht.finished.1 hadm ?_
    exact h.algo hq ht halgo hlock'.1 hlock'.2 (hcl.gate (Or.inr halgo))
      (hbegun (by rw [halgo]; simp) (by rw [halgo]; simp)) hready
  -- a queue that has been scanned is not scanned again
  have hkept : w.rr.pc = .last → w.rr.checked = true → s.readyQueue = w.rr.readyQueue := by
    intro hpc hck
    simp only [phase, hpc, lastScan, hck, Bool.not_true, Bool.false_eq_true, false_and, if_false,
      goto, Fallible.ok_bind] at hphase
    rw [← Except.ok.inj hphase]
  cases ht with
  | algo hpc => exact absurd hpc halgo
  | exit hpc hready _ _ hcur =>
    refine hquiet _ rfl rfl ?_
    exact ⟨hpast, h.begun, h.switch, h.switching, fun hc => absurd hc (by simp [Pc.inTurn]),
      fun hc => absurd hc (by simp [Pc.inTurn]), fun hc => absurd hc (by simp [Pc.afterScan]),
      fun _ hc => absurd hcur hc, fun _ _ hc => absurd hready hc⟩
  | spin hpc =>
    refine hquiet _ rfl rfl ?_
    exact h
  | tick hpc hnew =>
    refine hquiet _ rfl rfl ?_
    exact Busy.top h hs haw htick hp hi hpc hprompt hlock hclk hnew
  | idle hpc hcur =>
    refine hquiet _ rfl rfl ?_
    exact h.go (by rw [hpc]; rfl) rfl rfl rfl rfl (hbegun (by rw [hpc]; simp) (by rw [hpc]; simp))
      (Or.inl rfl) rfl fun hc => absurd hc (by simp [Pc.afterScan])
  | @serve s₁ hpc hcur hserve =>
    have hin : w.rr.pc.inTurn = true := by rw [hpc]; rfl
    have hsome : w.rr.currProcess ≠ none := Option.isSome_iff_ne_none.mp hcur
    have hb := hbegun (by rw [hpc]; simp) (by rw [hpc]; simp)
    obtain ⟨rq, mq, hf⟩ := fetched_eq clk w.rr
    rw [hf] at hserve
    cases hserve with
    | keep _ hm _ =>
      refine hquiet _ rfl rfl ?_
      exact h.go hin rfl hm.cur rfl rfl hb (Or.inl rfl) hm.pcbs fun hc =>
        absurd hc (by simp [Pc.afterScan])
    | block _ _ _ hm _ _ =>
      refine hquiet _ rfl rfl ?_
      exact h.go hin rfl hm.cur rfl rfl hb (Or.inl rfl) hm.pcbs fun hc =>
        absurd hc (by simp [Pc.afterScan])
    | switch hp' hx _ hf' hm hrq =>
      have hnow : clk .reqSwitchAgain = w.rr.now :=
        (hlock.inTurn hin (by rw [hpc]; simp)).1 .reqSwitchAgain
      have hcsu : clk .reqSwitchAgain + 1 = w.rr.now + 1 := by rw [hnow]
      refine hquiet _ rfl rfl ?_
      exact h.free hin rfl hsome rfl rfl hb hcsu
  | @firstScan s₁ k hpc hu =>
    obtain ⟨-, -, -, hcalls⟩ := firstScan_scans hcust hpc hlock hphase
    obtain ⟨m, u, b, n, hm, -, rfl⟩ := hu
    refine hquiet _ rfl rfl ?_
    refine h.go (by rw [hpc]; rfl) rfl hm.cur rfl rfl
      (hbegun (by rw [hpc]; simp) (by rw [hpc]; simp)) (Or.inl rfl) hm.pcbs fun _ hc hk => ?_
    -- when nobody is running, the scan is not left out
    have hnone : w.rr.currProcess = none := hm.cur ▸ hc
    have hk : k = false := hk
    simp only [scanning, hpc, hnone, or_true, if_true, hk] at hcalls
    exact absurd hcalls (by decide)
  | finish hpc _ _ | unfinished hpc _ =>
    refine hquiet _ rfl rfl ?_
    exact h.go (by rw [hpc]; rfl) rfl rfl rfl rfl (hbegun (by rw [hpc]; simp) (by rw [hpc]; simp))
      (Or.inl rfl) rfl (h.flag (by rw [hpc]; rfl) rfl rfl rfl)
  | reap hpc hcur hx hwait hrel =>
    have hin : w.rr.pc.inTurn = true := by rw [hpc]; rfl
    have hsome : w.rr.currProcess ≠ none := by rw [hcur]; simp
    have hnow : clk .finish = w.rr.now := (hlock.inTurn hin (by rw [hpc]; simp)).1 .finish
    have hcsu : clk .finish + 1 = w.rr.now + 1 := by rw [hnow]
    refine hquiet _ rfl rfl ?_
    exact h.free hin rfl hsome hrel.cur rfl (hbegun (by rw [hpc]; simp) (by rw [hpc]; simp)) hcsu
  | shut hpc hset hlt =>
    have hin : w.rr.pc.inTurn = true := by rw [hpc]; rfl
    have hswitch := h.switch
    -- nobody is running while a context switch is going on
    have hnone : w.rr.currProcess = none := by
      by_contra hne
      have := (h.inside hin hne).1
      omega
    have hle := h.switching (by omega)
    refine hquiet _ rfl rfl ?_
    exact h.finish rfl rfl (hbegun (by rw [hpc]; simp) (by rw [hpc]; simp)) hswitch (fun _ => hle)
      (fun _ _ _ => hle) (fun hc => absurd hnone hc) fun _ _ => hle
  | listen hpc _ _ _ | skip hpc _ _ =>
    refine hquiet _ rfl rfl ?_
    exact h.go (by rw [hpc]; rfl) rfl rfl rfl rfl (hbegun (by rw [hpc]; simp) (by rw [hpc]; simp))
      (Or.inr rfl) rfl (h.flag (by rw [hpc]; rfl) rfl rfl rfl)
  | sync hpc _ _ _ | last hpc _ _ =>
    refine hquiet _ rfl rfl ?_
    exact h.go (by rw [hpc]; rfl) rfl rfl rfl rfl (hbegun (by rw [hpc]; simp) (by rw [hpc]; simp))
      (Or.inl rfl) rfl (h.flag (by rw [hpc]; rfl) rfl rfl rfl)
  | drop hpc _ _ _ _ =>
    refine hquiet _ rfl rfl ?_
    have hin : w.rr.pc.inTurn = true := by rw [hpc]; rfl
    exact h.go hin hin rfl rfl rfl (hbegun (by rw [hpc]; simp) (by rw [hpc]; simp))
      (Or.inl rfl) rfl (h.flag (by rw [hpc]; rfl) rfl rfl rfl)
  | @arrive d rest hpc _ _ =>
    have hin : w.rr.pc.inTurn = true := by rw [hpc]; rfl
    have hn : working w { w with
        rr := ({ w.rr with msgq := rest } : RRState).receiveProcess d, clock := t } L = w.rr.now :=
      if_neg fun hc => absurd hc.2 (by simp [receiveProcess])
    rw [hn]
    exact h.receive hin hin rfl rfl (hbegun (by rw [hpc]; simp) (by rw [hpc]; simp)) rfl
  | lastScan hpc hu =>
    have hkept := hkept hpc
    obtain ⟨m, u, b, n, hm, -, rfl⟩ := hu
    have hout : w.rr.pc.inTurn = false := by rw [hpc]; rfl
    refine hquiet _ rfl rfl ?_
    refine h.finish rfl rfl (hbegun (by rw [hpc]; simp) (by rw [hpc]; simp)) h.switch h.switching
      (fun hc => absurd hc (by simp [Pc.afterScan])) (fun hc => h.between hout (hm.cur ▸ hc))
      fun hc hne => ?_
    have hnone : w.rr.currProcess = none := hm.cur ▸ hc
    cases hck : w.rr.checked with
    | false => exact h.scanned (by rw [hpc]; rfl) hnone hck
    | true =>
      have hready : w.rr.readyQueue ++ u = w.rr.readyQueue := hkept hck
      exact h.left hout hnone (hready ▸ hne)

/-- The runs in lockstep with the clock in which the children are prompt, no request of a last
tick misses, and the pages that are demanded are among the first 64. -/
def Brisk (w : World) (e : Event) : Prop := Punctual w e ∧ Prompt w e ∧ InTime w e

/-- A state of the system, and what has been recorded of it: the last tick at which a process
executed or was received, the tick of the last reception, and how many ticks had been executed
then. -/
structure Works where
  world : World
  active : ℤ
  entered : ℤ
  before : ℕ

/-- The brisk runs, recorded. -/
def works (P : Params) : TransitionSystem Works where
  init a := (systemOn P Paged).init a.world ∧ a.active = 0 ∧ a.entered = 0 ∧ a.before = 0
  step a b := ∃ e, Step P e a.world b.world ∧ Brisk a.world e ∧
    b.active = working a.world b.world a.active ∧
    b.entered = (if b.world.rr.admitted = a.world.rr.admitted then a.entered else a.world.rr.now) ∧
    b.before = if b.world.rr.admitted = a.world.rr.admitted then a.before
      else a.world.rr.executed.length

theorem works_reachable {a : Works} (h : (works P).Reachable a) :
    (systemIf P Paged Brisk).Reachable a.world := by
  refine TransitionSystem.Reachable.map (T := systemIf P Paged Brisk) (f := Works.world) ?_ ?_ h
  · rintro a ⟨ha, -⟩
    exact ha
  · rintro a b - ⟨e, hst, hC, -⟩
    exact Or.inl ⟨e, hst, hC⟩

/-- What the runs are known to keep. -/
structure Orderly (P : Params) (w : World) : Prop where
  inv : Inv (fun _ => True) (fun _ => True) w
  guarded : Inv (Guarded fun _ _ _ _ => True) Paged w
  ticking : Ticking w
  clocked : Clocked w.rr
  started : Started w.rr
  paced : Paced w.rr
  timekept : Timekept w.rr.edge w.rr ∧ Origin w.rr
  awake : ∃ n, Awake w n

/-- Lockstep is one turn for each value of the clock. -/
theorem Lockstep.inStep (h : Lockstep w e) : InStep w e := by
  cases e with
  | sched clk t =>
    rw [Lockstep] at h
    show Steady clk w.rr
    rw [Steady]
    cases hpc : w.rr.pc <;> rw [hpc] at h
    case top =>
      rcases h with ⟨hsame, -⟩ | ⟨hnext | hfirst, -⟩
      · exact Or.inl hsame
      · exact Or.inr (Or.inl hnext)
      · exact Or.inr (Or.inr hfirst)
    case algo =>
      obtain ⟨hclk, ht⟩ := h
      refine ⟨t, hclk, ?_⟩
      split_ifs at ht with hpre
      · exact Or.inr ⟨ht, Option.isSome_iff_ne_none.mpr hpre.1⟩
      · exact Or.inl ht
    case last | exited => trivial
    all_goals exact h.1
  | _ => trivial

theorem brisk_orderly (h : (systemIf P Paged Brisk).Reachable w) : Orderly P w := by
  have hsys : (system P).Reachable w := reachable_mono (fun _ _ => trivial) (reachable_of_if h)
  have hpunctual : (systemIf P Paged Punctual).Reachable w :=
    TransitionSystem.Reachable.map (S := systemIf P Paged Brisk)
      (T := systemIf P Paged Punctual) (f := id) (fun _ hw => hw)
      (fun w w' _ hst => Or.inl (hst.imp fun e hc => ⟨hc.1, hc.2.1⟩)) h
  obtain ⟨a, ha, hw⟩ := exists_wakeups hpunctual
  exact ⟨reachable_inv hsys, punctual_guarded hpunctual, punctual_ticking hpunctual,
    reachable_clocked hsys, (reachable_asked hsys).toStarted,
    reachable_paced (fun _ _ hc => hc.2) h,
    reachable_timekept (fun _ _ hc => ⟨hc.2, hc.1.1.inStep⟩) h, a.scans, hw ▸ wakeups_awake ha⟩

/-- **What is known of the last activity**: the processor has been used since, and each tick that
has been executed took no longer than the longest pause. -/
structure Effort (a : Works) : Prop where
  busy : Busy a.world.rr a.active
  sleepers : Sleepers a.world.rr a.active
  before : a.before ≤ a.world.rr.executed.length
  bound : a.active ≤ a.entered + longest * (a.world.rr.executed.length - a.before)

theorem Busy.le_now (h : Busy w.rr L) : L ≤ working w w' L := by
  rw [working]
  split_ifs
  · exact le_rfl
  · exact h.past.2

/-- **Every step of a run.** -/
theorem Busy.step (hq : 1 ≤ P.quantum) (h : Busy w.rr L) (hs : Sleepers w.rr L)
    (ho : Orderly P w) (hst : Step P e w w') (hC : Brisk w e) :
    Busy w'.rr (working w w' L) ∧ (w'.rr.executed ≠ w.rr.executed →
      w'.rr.admitted = w.rr.admitted ∧ w'.rr.executed.length = w.rr.executed.length + 1 ∧
        w.rr.now ≤ L + longest) := by
  obtain ⟨n, haw⟩ := ho.awake
  cases hst with
  | sched hclk hphase =>
    refine ⟨Busy.sched h hq hs haw ho.ticking ho.clocked ho.paced ho.inv hC.2.1 hC.1.1 hclk hphase,
      fun hne => absurd (ho.inv.turn hphase).finished.1 hne⟩
  | @child _ p s hchild =>
    have hcur := childStep_running hchild ho.started ho.paced
    have hrun : w.rr.currProcess ≠ none := by rw [hcur]; simp
    have hbegun : w.rr.lastTick ≠ -1 := by
      have := ho.clocked.begun (Option.isSome_iff_ne_none.mpr hrun)
      omega
    obtain ⟨c, hc, -, -, ⟨-, rfl⟩ | ⟨-, hsem, rfl⟩⟩ := childStep_cases hchild
    · have hsame : working w { w with rr := w.rr.childExit p c } L = L := if_pos ⟨rfl, rfl⟩
      rw [hsame]
      exact ⟨⟨h.past, h.begun, h.switch, h.switching, h.inside, h.waiting, h.scanned, h.between,
        h.left⟩, fun hne => absurd rfl hne⟩
    · have hne : w.rr.executed ++ [(p, w.rr.lastTick)] ≠ w.rr.executed := by simp
      have hnow : working w { w with rr := w.rr.childTick p c } L = w.rr.now :=
        if_neg fun hc => hne hc.1
      -- a permit is there at the end of a turn only
      have hout : w.rr.pc.inTurn = false := by
        obtain ⟨c', hact⟩ := ho.paced.active p hcur
        have hperm := hact.permit
        cases hpc : w.rr.pc <;> rw [hpc] at hperm
        case top | last | exited => rfl
        all_goals exact absurd hperm.1 (by omega)
      rw [hnow]
      refine ⟨h.tick hout rfl hrun rfl rfl hbegun rfl, fun _ => ⟨rfl, List.length_append, ?_⟩⟩
      have hlong : longest = 22 := rfl
      rcases h.between hout hrun with ⟨-, hle⟩ | hle | ⟨hle, -⟩ <;> omega
  | _ =>
    have hsame : ∀ {g : Generator} {t : ℤ} {m : List ProcessData}, working w { w with
        rr := { w.rr with msgq := m }, clock := t, gen := g } L = L := if_pos ⟨rfl, rfl⟩
    refine ⟨?_, fun hne => absurd rfl hne⟩
    refine hsame.symm ▸ ?_
    exact ⟨h.past, h.begun, h.switch, h.switching, h.inside, h.waiting, h.scanned, h.between,
      h.left⟩

theorem works_effort (hq : 1 ≤ P.quantum) {a : Works} (h : (works P).Reachable a) : Effort a := by
  induction h with
  | @init a ha =>
    obtain ⟨⟨l, t, -, -, -, hw⟩, hactive, hentered, hbefore⟩ := ha
    refine ⟨?_, ?_, ?_, ?_⟩
    · rw [hw, hactive]
      refine ⟨⟨le_rfl, le_rfl⟩, fun _ => ⟨rfl, ?_, rfl⟩, ?_, fun _ => ?_, fun hc => ?_,
        fun hc => ?_, fun hc => ?_, fun _ hc => absurd rfl hc, fun _ _ hc => absurd rfl hc⟩
      · show (-1 : ℤ) ≤ 0
        decide
      · show (-1 : ℤ) ≤ 0 + 1
        decide
      · show (0 : ℤ) ≤ 0 + 2
        decide
      all_goals exact absurd hc Bool.false_ne_true
    · rw [hw]
      exact List.forall_mem_nil _
    · rw [hbefore]
      exact Nat.zero_le _
    · rw [hw, hactive, hentered, hbefore]
      exact le_rfl
  | @step a b ha hst ih =>
    obtain ⟨e, hst, hC, hactive, hentered, hbefore⟩ := hst
    have ho := brisk_orderly (works_reachable ha)
    obtain ⟨hbusy, hexec⟩ := Busy.step hq ih.busy ih.sleepers ho hst hC
    have hsl := Busy.sleepers ih.busy ih.sleepers hst ho.inv ho.guarded hC.1
    have hle := ih.before
    have hbound := ih.bound
    have hpast := ih.busy.past
    have hlong : longest = 22 := rfl
    have hkey : b.before ≤ b.world.rr.executed.length ∧
        b.active ≤ b.entered + longest * (b.world.rr.executed.length - b.before) := by
      rw [hactive, working]
      by_cases hadm : b.world.rr.admitted = a.world.rr.admitted
      · rw [if_pos hadm] at hentered hbefore
        rw [hentered, hbefore]
        by_cases hex : b.world.rr.executed = a.world.rr.executed
        · rw [if_pos (And.intro hex hadm), hex]
          exact ⟨hle, hbound⟩
        · -- one tick more, and no longer pause than the longest
          obtain ⟨-, hlen, hnow⟩ := hexec hex
          rw [if_neg fun hc : _ ∧ _ => hex hc.1, hlen]
          refine ⟨by omega, ?_⟩
          push_cast
          rw [hlong] at hbound hnow ⊢
          omega
      · have hex : b.world.rr.executed = a.world.rr.executed := by
          by_contra hne
          exact hadm (hexec hne).1
        rw [if_neg hadm] at hentered hbefore
        rw [hentered, hbefore, if_neg fun hc : _ ∧ _ => hadm hc.2, hex]
        exact ⟨le_rfl, by rw [sub_self, mul_zero, add_zero]⟩
    exact ⟨hactive ▸ hbusy, hactive ▸ hsl.mono (Busy.le_now ih.busy), hkey.1, hkey.2⟩

/-- While somebody is unfinished, the tick of the loop is at most 22 ticks after the last
activity. -/
theorem works_now_le (hq : 1 ≤ P.quantum) {a : Works} (h : (works P).Reachable a)
    (hne : a.world.rr.currentPCBs ≠ []) : a.world.rr.now ≤ a.active + longest := by
  obtain ⟨hb, hs, -, -⟩ := works_effort hq h
  have ho := brisk_orderly (works_reachable h)
  obtain ⟨n, haw⟩ := ho.awake
  have hcust := ho.inv.held.toCustody
  have hlong : longest = 22 := rfl
  have hpast := hb.past
  by_cases hin : a.world.rr.pc.inTurn = true
  · by_cases hnone : a.world.rr.currProcess = none
    · exact hb.waiting hin hnone hne
    · have := (hb.inside hin hnone).2
      omega
  · have hout := Bool.eq_false_iff.mpr hin
    by_cases hnone : a.world.rr.currProcess = none
    · by_cases hready : a.world.rr.readyQueue = []
      · -- everybody is blocked
        obtain ⟨p, hmem⟩ := List.exists_mem_of_ne_nil _ hne
        have hB : p ∈ a.world.rr.blockQueue := (hcust.idle_places hnone hmem).resolve_left
          fun hr => List.ne_nil_of_mem hr hready
        obtain ⟨x, hx, -⟩ := hcust.blocked p hB
        have hwake := hs p hB x hx
        by_cases htop : a.world.rr.pc = .top
        · rcases haw.top htop with ⟨hone, -⟩ | ⟨-, -, hnil⟩
          · have := haw.done hone p hB x hx
            omega
          · rw [hnil] at hB
            exact absurd hB List.not_mem_nil
        · have := haw.due htop p hB x hx
          omega
      · have := hb.left hout hnone hready
        omega
    · rcases hb.between hout hnone with ⟨-, hle⟩ | hle | ⟨hle, -⟩ <;> omega

/-- The clock is at most one tick further than that. -/
theorem works_clock_le (hq : 1 ≤ P.quantum) {a : Works} (h : (works P).Reachable a)
    (hne : a.world.rr.currentPCBs ≠ []) : a.world.clock ≤ a.active + longest + 1 := by
  have hnow := works_now_le hq h hne
  have hb := (works_effort hq h).busy
  have ho := brisk_orderly (works_reachable h)
  obtain ⟨n, haw⟩ := ho.awake
  have hcust := ho.inv.held.toCustody
  have hlong : longest = 22 := rfl
  have hpast := hb.past
  have hclosed := reachable_closed (reachable_mono (fun _ _ => trivial)
    (reachable_of_if (works_reachable h)))
  by_cases hin : a.world.rr.pc.inTurn = true
  · have := (ho.ticking.turn hin).1
    omega
  · cases hpc : a.world.rr.pc <;> rw [hpc] at hin
    case top =>
      rcases ho.ticking.top hpc with ⟨hfirst, hnone⟩ | ⟨-, hc⟩
      · exact absurd (haw.begun_idle hpc hcust hfirst hnone (hb.begun hfirst).1 (by omega)) hne
      · omega
    case last => rcases (ho.ticking.last hpc).2 with hc | ⟨hc, -⟩ <;> omega
    case exited =>
      obtain ⟨hready, hblock, hnone⟩ := hclosed hpc
      obtain ⟨p, hmem⟩ := List.exists_mem_of_ne_nil _ hne
      rcases hcust.idle_places hnone hmem with hr | hB
      · exact absurd hready (List.ne_nil_of_mem hr)
      · exact absurd hblock (List.ne_nil_of_mem hB)
    all_goals exact absurd rfl hin

/-- **The processor does not stand still.** With a quantum of at least 1, and processes that have
at least one page each, a process has executed or has been received in the last 22 ticks while
somebody is unfinished: a context switch takes one tick, and the longest delay of a fault 20. -/
theorem works_busy (hq : 1 ≤ P.quantum) {a : Works} (h : (works P).Reachable a)
    (hne : a.world.rr.currentPCBs ≠ []) :
    a.world.rr.now ≤ a.active + longest ∧ a.world.clock ≤ a.active + longest + 1 :=
  ⟨works_now_le hq h hne, works_clock_le hq h hne⟩

theorem reachable_within {adm : ProcessData → Prop} {C : World → Event → Prop}
    (hC : ∀ w e, C w e → (Prompt w e ∧ InTime w e) ∧ InStep w e)
    (h : (systemIf P adm C).Reachable w) : Within w.rr := by
  refine h.invariant_of (J := fun w => (systemIf P adm C).Reachable w) (P := fun w => Within w.rr)
    (fun _ hw => hw) ?_ ?_
  · rintro w ⟨l, t, -, -, -, rfl⟩ p d hd
    cases hd
  · rintro w w' hw h ⟨e, hst, hc⟩
    have hsys : (system P).Reachable w := reachable_mono (fun _ _ => trivial) (reachable_of_if hw)
    have hi := reachable_inv hsys
    obtain ⟨hk, ho⟩ := reachable_timekept hC hw
    cases hst with
    | @sched _ clk s t _ hphase =>
      have ht := hi.turn hphase
      intro p d hd
      show ticksOf s.executed p ≤ d.runtime
      rw [ht.finished.1]
      rcases ht.admitted with ⟨hadm, -⟩ | ⟨d', hrcv, h1, hadm⟩
      · exact h p d (hadm ▸ hd)
      · have hd : (w.rr.admitted ++ [d'])[p]? = some d := hadm ▸ hd
        by_cases hlt : p < w.rr.admitted.length
        · rw [List.getElem?_append_left hlt] at hd
          exact h p d hd
        · -- whoever is received has not executed yet
          have hnew : d ∈ [d'] := by
            rw [List.getElem?_append_right (not_lt.mp hlt)] at hd
            exact List.mem_of_getElem? hd
          obtain rfl := List.mem_singleton.mp hnew
          have hpos : 0 < d.runtime := (hi.good d (List.mem_append_right _ (List.mem_filter.mpr
            ⟨(MsgQueue.perm_of_rcv hrcv).mem_iff.mpr List.mem_cons_self, decide_eq_true h1⟩))).2.1
          have hzero : ticksOf w.rr.executed p = 0 := ticksOf_eq_zero fun e he hep =>
            hlt (hep ▸ hk.totals.size ▸ hk.totals.known e he)
          rw [hzero]
          exact hpos.le
    | @child _ q s hchild =>
      have hpaced := reachable_paced (fun w e hc => (hC w e hc).1) hw
      have hcur := childStep_running hchild (reachable_asked hsys).toStarted hpaced
      obtain ⟨c, hch, -, -, ⟨-, rfl⟩ | ⟨hpos, -, rfl⟩⟩ := childStep_cases hchild
      · exact h
      · intro p d hd
        have hd : w.rr.admitted[p]? = some d := hd
        show ticksOf (w.rr.executed ++ [(q, w.rr.lastTick)]) p ≤ d.runtime
        by_cases hp : p = q
        · subst hp
          obtain ⟨x, hx⟩ := hi.held.wf.alloc (hi.held.wf.cur hcur)
          obtain ⟨d', hd', -, hr⟩ := ho.pcb p x hx
          obtain rfl := Option.some.inj (hd.symm.trans hd')
          obtain ⟨c', hact⟩ := hpaced.active p hcur
          obtain rfl := Option.some.inj (hch.symm.trans hact.child)
          have htotal := (hk.charged p x hcur hx).total
          have := hact.shared
          rw [ticksOf_append_self]
          omega
        · rw [ticksOf_append_of_ne _ hp]
          exact h p d hd
    | _ => exact h

/-- **Everybody finishes in time**, with a quantum of at least 1 and processes that have at least
one page each. When the last process was received at a tick, and some ticks had been executed
before, then those that remained of all the runtimes bound the time until everybody is finished:
22 ticks for each of them at most, and 23 more. -/
theorem works_makespan (hq : 1 ≤ P.quantum) {a : Works} (h : (works P).Reachable a)
    (hlate : a.entered + longest * (workload a.world.rr.admitted - a.before + 1) + 1 <
      a.world.clock) :
    a.world.rr.currentPCBs = [] := by
  by_contra hne
  have hclock := works_clock_le hq h hne
  have hbound := (works_effort hq h).bound
  have hr := works_reachable h
  have hlen := (reachable_within (fun _ _ hc => ⟨hc.2, hc.1.1.inStep⟩) hr).length_le
    (brisk_orderly hr).timekept.1.totals
  rw [longest] at hlate hclock hbound
  omega

/-! ### Explicit runs -/

/-- Whether a move is brisk: when a request is served, the running process has something left to
do. -/
def briskCheck (w : World) (mv : Move) : Bool :=
  lockstepCheck w mv && promptCheck w mv && match mv with
    | .sched a b => w.rr.pc ≠ .requests || (w.rr.fetched (readings a b)).requests.isEmpty ||
        (w.rr.currProcess.bind w.rr.child).all fun c => 0 < c.remainingtime
    | _ => true

theorem brisk_of_check {mv : Move} (h : (systemOn P Small).Reachable w)
    (hchk : briskCheck w mv = true) : Brisk w mv.event := by
  obtain ⟨hboth, hrest⟩ := Bool.and_eq_true_iff.mp hchk
  obtain ⟨hlock, hprompt⟩ := Bool.and_eq_true_iff.mp hboth
  have hr : (systemIf P Small fun w e => True).Reachable w := by
    refine TransitionSystem.Reachable.map (S := systemOn P Small)
      (T := systemIf P Small fun _ _ => True) (f := id) (fun _ hw => hw) ?_ h
    rintro w w' - ⟨e, hst⟩
    exact Or.inl ⟨e, hst, trivial⟩
  refine ⟨⟨lockstep_of_check hlock, lowPages_of_small h mv.event⟩, prompt_of_check hr hprompt, ?_⟩
  cases mv with
  | sched a b =>
    intro hpc p v c hp hd hc
    simp only [Bool.or_eq_true, decide_eq_true_eq, List.isEmpty_iff] at hrest
    rcases hrest with (hne | hnil) | hall
    · exact absurd hpc hne
    · obtain ⟨req, rest, hreq, -⟩ := hd
      exact absurd (hreq.symm.trans hnil) (by simp)
    · rw [hp, Option.bind_some, hc] at hall
      exact of_decide_eq_true hall
  | _ => trivial

/-- Make a move, if it is brisk, and record it. -/
def recordWork (P : Params) (a : Works) (mv : Move) : Option Works :=
  if briskCheck a.world mv then
    (a.world.play P mv).map fun w =>
      { world := w
        active := working a.world w a.active
        entered := if w.rr.admitted = a.world.rr.admitted then a.entered else a.world.rr.now
        before := if w.rr.admitted = a.world.rr.admitted then a.before
          else a.world.rr.executed.length }
  else none

theorem recordWork_reachable {l : List Move} : ∀ {a b : Works}, (works P).Reachable a →
    (systemOn P Small).Reachable a.world →
    TransitionSystem.playAll (recordWork P) a l = some b → (works P).Reachable b := by
  induction l with
  | nil =>
    intro a b ha _ h
    exact Option.some.inj h ▸ ha
  | cons mv l ih =>
    intro a b ha hs h
    obtain ⟨a', ha', h⟩ := Option.bind_eq_some_iff.mp h
    rw [recordWork] at ha'
    split_ifs at ha' with hchk
    obtain ⟨w, hw, rfl⟩ := Option.map_eq_some_iff.mp ha'
    have hst := play_step hw
    exact ih (ha.step ⟨mv.event, hst, brisk_of_check hs hchk, rfl, rfl, rfl⟩)
      (hs.step ⟨mv.event, hst⟩) h

theorem works_start {l : List ProcessData} (hw : Workload l) (hl : ∀ d ∈ l, Small d) :
    (works P).Reachable ⟨start l 1, 0, 0, 0⟩ ∧ (systemOn P Small).Reachable (start l 1) :=
  ⟨.init ⟨⟨l, 1, hw, fun d hd => (hl d hd).1, by decide, rfl⟩, rfl, rfl, rfl⟩,
    .init ⟨l, 1, hw, hl, by decide, rfl⟩⟩

/-- At the end of tick 7 nobody is running: one process has just finished, one is ready, and one
is blocked. The last one to execute did so at tick 6. -/
theorem works_busy_preempted : ∃ a : Works, a.world.rr.currProcess = none ∧
    a.world.rr.readyQueue = [1] ∧ a.world.rr.blockQueue = [0] ∧ a.world.rr.now = 7 ∧
    a.active = 6 ∧ a.world.rr.now ≤ a.active + longest ∧
    a.world.clock ≤ a.active + longest + 1 := by
  have hrun : (TransitionSystem.playAll (recordWork threeParams) ⟨start threeAtOnce 1, 0, 0, 0⟩
      (preemptedRun ++ stepsAt 7 7)).map (fun a => (a.world.rr.currProcess,
        a.world.rr.readyQueue, a.world.rr.blockQueue, a.world.rr.now, a.active)) =
          some (none, [1], [0], 7, 6) := by
    decide +kernel
  have hlive : (TransitionSystem.playAll (recordWork threeParams) ⟨start threeAtOnce 1, 0, 0, 0⟩
      (preemptedRun ++ stepsAt 7 7)).map (fun a => a.world.rr.currentPCBs) = some [0, 1] := by
    decide +kernel
  obtain ⟨a, ha, he⟩ := Option.map_eq_some_iff.mp hrun
  simp only [Prod.mk.injEq] at he
  obtain ⟨hcur, hready, hblock, hnow, hactive⟩ := he
  rw [ha, Option.map_some] at hlive
  obtain ⟨hstart, hsmall⟩ := works_start (P := threeParams) workload_threeAtOnce (by decide)
  exact ⟨a, hcur, hready, hblock, hnow, hactive, works_busy (by decide)
    (recordWork_reachable hstart hsmall ha) (by rw [Option.some.inj hlive]; simp)⟩

/-- A process that executes for one tick, and one that arrives much later. -/
def shortAndLate : List ProcessData :=
  [shortProcess, { soleProcess 2 with id := 8, arrival := 100 }]

/-- A tick in which nobody is there. -/
def idleTick (t : ℤ) : List Move := [.observe t, .sync] ++ List.replicate 9 (.sched t t)

/-- The first process is received at tick 1 and executes; the run goes on until tick 47. -/
def longRun : List Move :=
  firstTick ++ [.child 0, .child 0, .observe 2, .sync] ++ List.replicate 9 (.sched 2 2) ++
    (List.range 45).flatMap fun n => idleTick (n + 3)

theorem works_makespan_long : ∃ a : Works, a.entered = 1 ∧ a.world.clock = 47 ∧
    a.world.rr.admitted.length = 1 ∧ a.world.rr.currentPCBs = [] := by
  have hrun : (TransitionSystem.playAll (recordWork (quietParams 2))
      ⟨start shortAndLate 1, 0, 0, 0⟩ longRun).map (fun a => (a.entered, a.before, a.world.clock,
        a.world.rr.admitted)) = some (1, 0, 47, [shortProcess]) := by
    decide +kernel
  obtain ⟨a, ha, he⟩ := Option.map_eq_some_iff.mp hrun
  simp only [Prod.mk.injEq] at he
  obtain ⟨hentered, hbefore, hclock, hadm⟩ := he
  have hw : Workload shortAndLate := by refine ⟨?_, ?_, ?_⟩ <;> decide
  obtain ⟨hstart, hsmall⟩ := works_start (P := quietParams 2) hw (by decide)
  refine ⟨a, hentered, hclock, by rw [hadm]; rfl,
    works_makespan (by decide) (recordWork_reachable hstart hsmall ha) ?_⟩
  rw [hentered, hbefore, hclock, hadm]
  decide

end World

end CpuScheduler
