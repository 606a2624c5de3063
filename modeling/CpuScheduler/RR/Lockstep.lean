import CpuScheduler.RR.Mail

/-!
# One iteration for each value of the clock

The runs in which the main loop keeps up with the clock: every value of the clock has an
iteration, and while one is being executed the clock stands still, except that
`wait_N_secs`, in the middle of a preemption, waits for the next tick
(`CpuScheduler.World.Lockstep`). In such a run the clock is known at every cut
(`CpuScheduler.World.Ticking`).
-/

namespace CpuScheduler

namespace RRState

open Fallible Mem

variable {K : Mem → Prop} {P : Params} {clk : Clk} {s s' : RRState}

/-- `RR_algo` preempts the running process. -/
def Preempting (clk : Clk) (s : RRState) : Prop :=
  s.currProcess ≠ none ∧ 0 < s.now ∧ clk .preemptDue ≥ s.nextPreemtionTime ∧
    ¬(s.mayExtend clk = .ok true ∧ clk .extendDue ≥ s.nextPreemtionTime)

instance (clk : Clk) (s : RRState) : Decidable (s.Preempting clk) :=
  inferInstanceAs (Decidable (_ ∧ _))

/-- A preemption leaves the block queue scanned. -/
theorem Decides.checked (hd : Decides K P clk s s') (h : s.Preempting clk) : s'.checked = true := by
  obtain ⟨hne, -, hdue, hext⟩ := h
  cases hd with
  | stay hrun hidle => exact absurd hdue (not_le.mpr (hrun hne))
  | extend hp hext' => exact absurd hext' hext
  | preempt hp hx hdue hwait hu hheld hbefore hd =>
    cases hd
    rfl
  | dispatch hp hd => exact absurd hp hne

end RRState

namespace World

open RRState

variable {P : Params} {adm : ProcessData → Prop} {C : World → Event → Prop} {w w' : World}
  {e : Event}

/-- **The loop and the clock are in lockstep.** The iteration after the one for the tick
`last_tick` is for the next tick; the first one is for any tick. -/
def Lockstep (w : World) : Event → Prop
  | .sched clk t =>
    match w.rr.pc with
    | .top => (clk .now = w.rr.lastTick ∧ t ≤ w.rr.lastTick + 1) ∨
        ((clk .now = w.rr.lastTick + 1 ∨ w.rr.lastTick = -1) ∧ t = clk .now)
    | .algo => clk = readings w.rr.now t ∧
        t = if w.rr.Preempting clk then w.rr.now + 1 else w.rr.now
    | .last => (∀ x, clk x = w.clock) ∧ t ≤ w.rr.now + 1
    | .exited => True
    | _ => (∀ x, clk x = w.rr.now) ∧ t = w.rr.now
  | .observe t =>
    match w.rr.pc with
    | .top => t ≤ w.rr.lastTick + 1 ∨ w.rr.lastTick = -1
    | .exited => True
    | _ => t = w.clock
  | _ => True

/-- **What the clock shows**, cut by cut. -/
structure Ticking (w : World) : Prop where
  turn : w.rr.pc.inTurn = true → w.clock = w.rr.now ∧ w.rr.lastTick = w.rr.now
  /-- The clock is ahead of the tick if there was a preemption, and then the block queue has
  been scanned. -/
  last : w.rr.pc = .last → w.rr.lastTick = w.rr.now ∧
    (w.clock = w.rr.now ∨ (w.clock = w.rr.now + 1 ∧ w.rr.checked = true))
  top : w.rr.pc = .top → (w.rr.lastTick = -1 ∧ w.rr.currProcess = none) ∨
    (w.rr.lastTick = w.rr.now ∧ w.clock ≤ w.rr.now + 1)
  running : w.rr.currProcess ≠ none → 0 < w.rr.now
  nonneg : 0 ≤ w.clock
  tick : 0 ≤ w.rr.now

/-- The clock stands still inside a turn. -/
theorem Lockstep.inTurn {clk : Clk} {t : ℤ} (h : Lockstep w (.sched clk t))
    (hin : w.rr.pc.inTurn = true) (hne : w.rr.pc ≠ .algo) :
    (∀ x, clk x = w.rr.now) ∧ t = w.rr.now := by
  rw [Lockstep] at h
  cases hpc : w.rr.pc <;> rw [hpc] at h hin hne
  case top | last | exited => exact nomatch hin
  case algo => exact absurd rfl hne
  all_goals exact h

/-- A step of the scheduler. -/
theorem Ticking.sched {clk : Clk} {s : RRState} {t : ℤ} (h : Ticking w)
    (hlock : Lockstep w (.sched clk t)) (hclk : Readings clk w.clock t)
    (ht : Turn (fun _ => True) P clk w.rr s) : Ticking { w with rr := s, clock := t } := by
  have hnonneg : 0 ≤ t := le_trans h.nonneg hclk.1
  -- a phase inside a turn that does not leave it
  have hgo : ∀ (s₁ : RRState), w.rr.pc.inTurn = true → w.rr.pc ≠ .algo → s₁.pc ≠ .top →
      s₁.now = w.rr.now → s₁.lastTick = w.rr.lastTick →
      (s₁.currProcess ≠ none → w.rr.currProcess ≠ none) →
      Ticking { w with rr := s₁, clock := t } := by
    intro s₁ hin hne htop hnow hlast hcur
    have hl := (h.turn hin).2
    have htn : t = w.rr.now := (hlock.inTurn hin hne).2
    refine ⟨fun _ => ⟨htn.trans hnow.symm, ?_⟩, fun _ => ⟨?_, Or.inl (htn.trans hnow.symm)⟩,
      fun he => absurd he htop, fun hc => ?_, hnonneg, ?_⟩
    · rw [hlast, hnow, hl]
    · rw [hlast, hnow, hl]
    · show 0 < s₁.now
      rw [hnow]
      exact h.running (hcur hc)
    · show 0 ≤ s₁.now
      rw [hnow]
      exact h.tick
  cases ht with
  | exit hpc _ _ _ hcur =>
    exact ⟨by rintro ⟨⟩, (by simp), (by simp), (fun hc => absurd hcur hc), hnonneg, h.tick⟩
  | spin hpc =>
    rw [Lockstep, hpc] at hlock
    have hn := h.tick
    have htop := h.top hpc
    have hin : w.rr.pc.inTurn ≠ true := by
      rw [hpc]
      rintro ⟨⟩
    have hlast : w.rr.pc ≠ .last := by
      rw [hpc]
      simp
    refine ⟨fun hin' => absurd hin' hin, fun hl => absurd hl hlast, fun _ => ?_, h.running, hnonneg,
      h.tick⟩
    rcases htop with hfirst | ⟨hl, hc⟩
    · exact Or.inl hfirst
    · refine Or.inr ⟨hl, ?_⟩
      show t ≤ w.rr.now + 1
      rcases hlock with ⟨-, ht⟩ | ⟨hnow, ht⟩ <;> omega
  | tick hpc hnew =>
    rw [Lockstep, hpc] at hlock
    rcases hlock with ⟨hsame, -⟩ | ⟨hnext, ht⟩
    · exact absurd hsame hnew
    · refine ⟨fun _ => ⟨ht, rfl⟩, (by simp), (by simp), fun hc => ?_, hnonneg,
        le_trans h.nonneg (hclk.2 .now).1⟩
      show 0 < clk .now
      have hpos := h.running hc
      rcases h.top hpc with ⟨-, hnone⟩ | ⟨hl, -⟩
      · exact absurd hnone hc
      · omega
  | idle hpc hcur =>
    exact hgo _ (by rw [hpc]; rfl) (by simp [hpc]) (by simp) rfl rfl id
  | @serve s₁ hpc hcur hs =>
    have hsome : w.rr.currProcess ≠ none := Option.isSome_iff_ne_none.mp hcur
    have hframe : s₁.now = w.rr.now ∧ s₁.lastTick = w.rr.lastTick := by
      obtain ⟨rq, mq, hf⟩ := fetched_eq clk w.rr
      rw [hf] at hs
      cases hs <;> exact ⟨rfl, rfl⟩
    exact hgo _ (by rw [hpc]; rfl) (by simp [hpc]) (by simp) hframe.1 hframe.2
      fun _ => hsome
  | firstScan hpc hu =>
    obtain ⟨m, u, b, n, hm, -, rfl⟩ := hu
    refine hgo _ (by rw [hpc]; rfl) (by simp [hpc]) (by simp) rfl rfl fun hc => ?_
    exact hm.cur ▸ hc
  | finish hpc hcur hsig =>
    exact hgo _ (by rw [hpc]; rfl) (by simp [hpc]) (by simp) rfl rfl id
  | unfinished hpc hnot =>
    exact hgo _ (by rw [hpc]; rfl) (by simp [hpc]) (by simp) rfl rfl id
  | reap hpc hcur hx hwait hr =>
    exact hgo _ (by rw [hpc]; rfl) (by simp [hpc]) (by simp) rfl rfl
      fun hc => absurd hr.cur hc
  | shut hpc hset hlt =>
    exact hgo _ (by rw [hpc]; rfl) (by simp [hpc]) (by simp) rfl rfl id
  | listen hpc hopen hrec hnow =>
    exact hgo _ (by rw [hpc]; rfl) (by simp [hpc]) (by simp) rfl rfl id
  | skip hpc hopen hnot =>
    exact hgo _ (by rw [hpc]; rfl) (by simp [hpc]) (by simp) rfl rfl id
  | arrive hpc hrcv hd =>
    exact hgo _ (by rw [hpc]; rfl) (by simp [hpc])
      (by rw [receiveProcess, hpc]; simp)
      rfl rfl id
  | sync hpc hrcv hd hnow =>
    exact hgo _ (by rw [hpc]; rfl) (by simp [hpc]) (by simp) rfl rfl id
  | last hpc hrcv hd =>
    exact hgo _ (by rw [hpc]; rfl) (by simp [hpc]) (by simp) rfl rfl id
  | drop hpc hrcv h1 h5 h2 =>
    exact hgo _ (by rw [hpc]; rfl) (by simp [hpc]) (by simp [hpc]) rfl rfl id
  | @algo s₁ m print cl hpc hd hm _ =>
    have hl := (h.turn (by rw [hpc]; rfl)).2
    rw [Lockstep, hpc] at hlock
    obtain ⟨-, htick⟩ := hlock
    have h₁ : s₁.now = w.rr.now ∧ s₁.lastTick = w.rr.lastTick ∧
        (w.rr.Preempting clk → s₁.checked = true) ∧
        (s₁.currProcess ≠ none → 0 < w.rr.now) := by
      rcases hd with ⟨hpos, hd⟩ | ⟨hneg, rfl⟩
      · have hchk := hd.checked
        obtain ⟨m, r, b, n, t, u, k, rt, log, ch, c, rfl⟩ := hd.frame
        exact ⟨rfl, rfl, hchk, fun _ => hpos⟩
      · exact ⟨rfl, rfl, fun hp => absurd hp.2.1 (by omega), h.running⟩
    obtain ⟨hnow, hlast, hchk, hrun⟩ := h₁
    have hkey : ∀ s₂ : RRState, s₂.now = s₁.now → s₂.lastTick = s₁.lastTick →
        s₂.checked = s₁.checked → s₂.currProcess = s₁.currProcess → s₂.pc = .last →
        Ticking { w with rr := s₂, clock := t } := by
      intro s₂ hn₂ hl₂ hc₂ hcur₂ hpc₂
      refine ⟨fun hin => ?_, fun _ => ⟨?_, ?_⟩, fun he => ?_, fun hc => ?_, hnonneg, ?_⟩
      · rw [hpc₂] at hin
        cases hin
      · rw [hn₂, hl₂, hnow, hlast, hl]
      · show t = s₂.now ∨ (t = s₂.now + 1 ∧ s₂.checked = true)
        rw [hn₂, hnow, hc₂, htick]
        split_ifs with hp
        · exact Or.inr ⟨rfl, hchk hp⟩
        · exact Or.inl rfl
      · exact absurd (hpc₂.symm.trans he) (by simp)
      · show 0 < s₂.now
        rw [hn₂, hnow]
        exact hrun (hcur₂ ▸ hc)
      · show 0 ≤ s₂.now
        rw [hn₂, hnow]
        exact h.tick
    rw [permit]
    split_ifs <;> exact hkey _ rfl rfl rfl hm.cur rfl
  | lastScan hpc hu =>
    obtain ⟨m, u, b, n, hm, -, rfl⟩ := hu
    rw [Lockstep, hpc] at hlock
    refine ⟨by rintro ⟨⟩, by simp, fun _ => Or.inr ⟨(h.last hpc).1, hlock.2⟩, fun hc => ?_,
      hnonneg, h.tick⟩
    exact h.running (hm.cur ▸ hc)

/-- **Every step in lockstep keeps the clock known.** -/
theorem Step.ticking (hst : Step P e w w') (hlock : Lockstep w e)
    (hi : Inv (fun _ => True) (fun _ => True) w) (h : Ticking w) : Ticking w' := by
  cases hst with
  | sched hclk hs => exact h.sched hlock hclk (hi.turn hs)
  | child hs =>
    obtain ⟨c, -, -, -, ⟨-, rfl⟩ | ⟨-, -, rfl⟩⟩ := childStep_cases hs <;>
      exact ⟨h.turn, h.last, h.top, h.running, h.nonneg, h.tick⟩
  | @observe _ t hq hcur ht =>
    rw [Lockstep] at hlock
    -- the clock moves between two iterations only
    have hstill : w.rr.pc ≠ .top → w.rr.pc ≠ .exited → t = w.clock := by
      intro htop hex
      cases hpc : w.rr.pc <;> rw [hpc] at hlock htop hex
      case top => exact absurd rfl htop
      case exited => exact absurd rfl hex
      all_goals exact hlock
    refine ⟨fun hin => ?_, fun hpc => ?_, fun hpc => ?_, h.running, le_trans h.nonneg ht, h.tick⟩
    · have hin : w.rr.pc.inTurn = true := hin
      have htop : w.rr.pc ≠ .top := fun he => nomatch he ▸ hin
      have hex : w.rr.pc ≠ .exited := fun he => nomatch he ▸ hin
      obtain ⟨hc, hl⟩ := h.turn hin
      exact ⟨(hstill htop hex).trans hc, hl⟩
    · have hpc : w.rr.pc = .last := hpc
      obtain ⟨hl, hc⟩ := h.last hpc
      have ht : t = w.clock := hstill (by rw [hpc]; exact nofun) (by rw [hpc]; exact nofun)
      refine ⟨hl, ?_⟩
      show t = _ ∨ (t = _ ∧ _)
      rw [ht]
      exact hc
    · have hpc : w.rr.pc = .top := hpc
      rw [hpc] at hlock
      have hn := h.tick
      rcases h.top hpc with hfirst | ⟨hl, hc⟩
      · exact Or.inl hfirst
      · refine Or.inr ⟨hl, ?_⟩
        show t ≤ w.rr.now + 1
        omega
  | _ => exact ⟨h.turn, h.last, h.top, h.running, h.nonneg, h.tick⟩

theorem reachable_ticking (hC : ∀ w e, C w e → Lockstep w e)
    (h : (systemIf P adm C).Reachable w) : Ticking w := by
  refine h.invariant_of (J := Inv (fun _ => True) fun _ => True) (P := Ticking) (fun w hw => ?_)
    ?_ ?_
  · exact reachable_inv (reachable_mono (fun _ _ => trivial) (reachable_of_if hw))
  · rintro w ⟨l, t, -, -, ht, rfl⟩
    exact ⟨nofun, nofun, fun _ => Or.inl ⟨rfl, rfl⟩, (fun hc => absurd rfl hc), ht, le_rfl⟩
  · rintro w w' hi h ⟨e, hst, hc⟩
    exact hst.ticking (hC w e hc) hi h

/-! ### Explicit runs -/

/-- Whether a move is in lockstep. -/
def lockstepCheck (w : World) : Move → Bool
  | .sched a b =>
    match w.rr.pc with
    | .top => (a = w.rr.lastTick ∧ b ≤ w.rr.lastTick + 1) ∨
        ((a = w.rr.lastTick + 1 ∨ w.rr.lastTick = -1) ∧ b = a)
    | .algo => a = w.rr.now ∧
        b = if w.rr.Preempting (readings a b) then w.rr.now + 1 else w.rr.now
    | .last => a = w.clock ∧ b = w.clock ∧ b ≤ w.rr.now + 1
    | .exited => true
    | _ => a = w.rr.now ∧ b = w.rr.now
  | .observe t =>
    match w.rr.pc with
    | .top => t ≤ w.rr.lastTick + 1 ∨ w.rr.lastTick = -1
    | .exited => true
    | _ => t = w.clock
  | _ => true

theorem lockstep_of_check {e : Move} (h : lockstepCheck w e = true) : Lockstep w e.event := by
  have hconst : ∀ a x, readings a a x = a := fun a x => by
    rw [readings]
    split_ifs <;> rfl
  cases e with
  | sched a b =>
    rw [Move.event, Lockstep]
    rw [lockstepCheck] at h
    cases hpc : w.rr.pc <;> rw [hpc] at h
    case top => exact of_decide_eq_true h
    case algo =>
      obtain ⟨rfl, hb⟩ := of_decide_eq_true h
      exact ⟨rfl, hb⟩
    case last =>
      obtain ⟨rfl, rfl, hb⟩ := of_decide_eq_true h
      exact ⟨hconst _, hb⟩
    case exited => trivial
    all_goals
      obtain ⟨rfl, rfl⟩ := of_decide_eq_true h
      exact ⟨hconst _, rfl⟩
  | observe t =>
    rw [Move.event, Lockstep]
    rw [lockstepCheck] at h
    cases hpc : w.rr.pc <;> rw [hpc] at h
    case exited => trivial
    all_goals exact of_decide_eq_true h
  | _ => trivial

end World

end CpuScheduler
