import CpuScheduler.Dual.Moves

/-!
# The threshold gate

The main scheduler sets the semaphore of the gate to 0 when it takes up a tick and to 2 when
`FCFS_algo` has been completed, and a sub-scheduler takes one permit for each tick. The permits
are for nobody in particular and for no tick in particular: whoever takes up the next tick
while one is left may use it, before the main scheduler has closed the gate again, and
when the gate is opened, a sub-scheduler that has run ahead of the main scheduler goes
through as well.

The history next to a state (`CpuScheduler.Dual.Gated`) says for which tick `FCFS_algo` has been
completed, and how often each of the sub-schedulers has gone through since. As long as no
sub-scheduler takes up a tick with an old permit at hand, and none is ahead when the gate is
opened (`CpuScheduler.Dual.Gated.Fresh`), the gate keeps what it promises
(`CpuScheduler.Dual.Gated.fresh_kept`); without, it does not.
-/

namespace CpuScheduler

namespace Dual

/-! ### Places -/

/-- In front of the gate, with a tick in hand. -/
def SubPc.waiting : SubPc → Bool
  | .finish | .gate => true
  | _ => false

/-- Behind the gate, up to the end of the loop. -/
def SubPc.behindGate : SubPc → Bool
  | .drain behind | .put behind _ => behind
  | .resume | .test | .algo | .dequeue | .count | .run | .clear | .permit | .remaining => true
  | .update k | .total k _ _ | .write k _ _ => k = .bottom ∨ k = .run
  | _ => false

/-- The termination messages of a sub-scheduler. -/
def SubPc.gone : SubPc → ℕ
  | .closing | .exited => 1
  | _ => 0

/-- Out of the loop. -/
def MainPc.out : MainPc → Bool
  | .leave | .done => true
  | _ => false

/-- In front of the opening of the gate. -/
def MainPc.opens : MainPc → Bool
  | .opening => true
  | _ => false

theorem SubPc.not_waiting {pc : SubPc} (h : pc.behindGate = true) : pc.waiting = false := by
  cases pc <;> first | rfl | exact nomatch h

theorem SubPc.gone_le (pc : SubPc) : pc.gone ≤ 1 := by
  cases pc <;> simp only [gone, le_refl, zero_le]

theorem SubPc.not_waiting_of_gone {pc : SubPc} (h : pc.gone = 1) : pc.waiting = false := by
  cases pc <;> first | rfl | exact nomatch h

namespace Sub

variable {clk rem : ℤ} {s s' : Sub}

/-- On the same side of the gate, with the same tick. -/
def Stays (s s' : Sub) : Prop :=
  s'.pc.waiting = s.pc.waiting ∧ s'.now = s.now ∧ s'.lastTick = s.lastTick

/-- **The ticks of a sub-scheduler**: it takes up a new one, or looks at the old one again, or
goes on without a gate at tick 0, or does something else. -/
theorem Moves.ticks (h : s.Moves clk rem s') :
    (s.pc = .tick ∧ clk ≠ s.lastTick ∧ s'.pc = .finish ∧ s'.now = clk ∧
      s'.lastTick = s.lastTick) ∨
    (s'.pc.waiting = false ∧ s'.now = s.lastTick ∧ s'.lastTick = s.lastTick) ∨
    (s'.pc.waiting = false ∧ s.now ≤ 0 ∧ s'.now = s.now ∧ s'.lastTick = s.now) ∨
    s.Stays s' := by
  cases h with
  | new hpc hnew => exact Or.inl ⟨hpc, hnew, rfl, rfl, rfl⟩
  | old hpc hold => exact Or.inr (Or.inl ⟨rfl, hold, rfl⟩)
  | free hpc h0 => exact Or.inr (Or.inr (Or.inl ⟨rfl, h0, rfl, rfl⟩))
  | finish hpc hfin hs =>
    obtain ⟨x, l, p, -, -, rfl⟩ := finishLogic_eq_ok hs
    exact Or.inr (Or.inr (Or.inr ⟨by rw [hpc]; rfl, rfl, rfl⟩))
  | run hpc hs =>
    obtain ⟨x, y, l, ch, -, -, rfl⟩ := runProcess_eq_ok hs
    exact Or.inr (Or.inr (Or.inr ⟨by rw [hpc]; rfl, rfl, rfl⟩))
  | resume hpc =>
    obtain ⟨st, y, l, ch, hs, -⟩ := s.endStall_eq clk
    rw [hs]
    exact Or.inr (Or.inr (Or.inr ⟨by rw [hpc]; rfl, rfl, rfl⟩))
  | permit hpc =>
    obtain ⟨n, hs⟩ := s.permit_eq
    rw [hs]
    exact Or.inr (Or.inr (Or.inr ⟨by rw [hpc]; rfl, rfl, rfl⟩))
  | @drained b hpc hq | @last b pd q hpc hq h5 =>
    cases b <;> exact Or.inr (Or.inr (Or.inr ⟨by rw [hpc]; rfl, rfl, rfl⟩))
  | drop hpc hq h1 h5 => exact Or.inr (Or.inr (Or.inr ⟨rfl, rfl, rfl⟩))
  | _ hpc => exact Or.inr (Or.inr (Or.inr ⟨by rw [hpc]; rfl, rfl, rfl⟩))

/-- Without a permit, the gate is passed at tick 0 only. -/
theorem Moves.now_le (h : s.Moves clk rem s') (hpc : s.pc = .gate) : s.now ≤ 0 := by
  cases h with
  | free hpc' h0 => exact h0
  | _ hpc' => exact nomatch hpc.symm.trans hpc'

/-- The termination message is not sent by a move in the own state. -/
theorem Moves.gone (h : s.Moves clk rem s') : s'.pc.gone = s.pc.gone := by
  cases h with
  | finish hpc hfin hs | run hpc hs | drop hpc hq h1 h5 => simp only [hpc, SubPc.gone]
  | @drained b hpc hq | @last b pd q hpc hq h5 =>
    cases b <;> simp only [hpc, SubPc.gone, behindDrain]
  | _ hpc => simp only [hpc, SubPc.gone]

end Sub

namespace World

variable {P : Params} {w w' : World} {c d : Cpu} {e : Event} {s : Sub}

/-! ### The termination messages -/

/-- The number of the sub-schedulers that have sent their termination message. -/
def goneSubs (w : World) : ℕ := (w.sub .one).pc.gone + (w.sub .two).pc.gone

theorem goneSubs_setSub (w : World) (c : Cpu) (s : Sub) :
    (w.setSub c s).goneSubs + (w.sub c).pc.gone = w.goneSubs + s.pc.gone := by
  cases c <;> simp only [goneSubs, setSub, Function.update_self, ne_eq, reduceCtorEq,
    not_false_eq_true, Function.update_of_ne] <;> omega

/-- **No termination message is counted twice**, and the main scheduler does not leave its loop
before it has counted two. -/
structure Acked (w : World) : Prop where
  count : w.main.subsTerminated + (acks w.resp).length ≤ w.goneSubs
  out : w.main.pc.out = true → 2 ≤ w.main.subsTerminated

theorem acks_cons_le (pd : ProcessData) (l : List ProcessData) :
    (acks l).length ≤ (acks (pd :: l)).length :=
  ((List.sublist_cons_self pd l).filter _).length_le

theorem acks_replies (l : List ProcessData) : acks (replies l) = [] := by
  rw [acks, replies, List.filter_eq_nil_iff]
  intro pd hpd
  simpa using (List.mem_filter.mp hpd).2

/-- What the main scheduler does with termination messages. -/
theorem Mains.acked (h : Mains P w w') :
    w'.main.subsTerminated + (acks w'.resp).length ≤
        w.main.subsTerminated + (acks w.resp).length ∧
      w.main.subsTerminated ≤ w'.main.subsTerminated ∧
      (w'.main.pc.out = true → w.main.pc.out = true ∨ 2 ≤ w.main.subsTerminated) := by
  have hcounted : w.main.subsTerminated + (acks w.resp).length + (acks (replies w.resp)).length ≤
      w.main.subsTerminated + (acks w.resp).length := by
    rw [acks_replies]
    exact le_rfl
  have hbehind : ∀ t, (Main.behindReceive t).out = false := by
    intro t
    rw [Main.behindReceive]
    split_ifs <;> rfl
  cases h with
  | leave hpc hgo =>
    refine ⟨le_rfl, le_rfl, fun _ => Or.inr ?_⟩
    simp only [Main.goesOn, Bool.or_eq_false_iff, decide_eq_false_iff_not, not_lt] at hgo
    exact hgo.2
  | spin hpc hgo hold => exact ⟨hcounted, Nat.le_add_right .., Or.inl⟩
  | begin hpc hgo hnew => exact ⟨hcounted, Nat.le_add_right .., fun h => nomatch h⟩
  | shut hpc =>
    refine ⟨le_rfl, le_rfl, fun h => ?_⟩
    simp only [goto] at h
    split_ifs at h
    · exact nomatch h
    · exact nomatch (hbehind _).symm.trans h
  | sync hpc hrcv h2 hnew =>
    refine ⟨le_rfl, le_rfl, fun h => ?_⟩
    simp only [goto, hbehind, reduceCtorEq] at h
  | last hpc hrcv h5 =>
    refine ⟨le_rfl, le_rfl, fun h => ?_⟩
    simp only [hbehind, reduceCtorEq] at h
  | @refused b read resp rest hpc hrcv h12 =>
    refine ⟨Nat.add_le_add_left ?_ _, le_rfl, fun h => nomatch h⟩
    rw [hrcv]
    exact acks_cons_le resp rest
  | @reply b read resp rest hpc hrcv h12 =>
    refine ⟨Nat.add_le_add_left ?_ _, le_rfl, fun h => nomatch h⟩
    rw [hrcv]
    exact acks_cons_le resp rest
  | bottom hpc hterm =>
    refine ⟨le_rfl, le_rfl, fun h => ?_⟩
    rcases hterm with ⟨-, -, rfl⟩ | ⟨-, rfl⟩
    · exact nomatch h
    · exact nomatch h
  | done hpc => exact ⟨le_rfl, le_rfl, fun _ => Or.inl (by rw [hpc]; rfl)⟩
  | arrive hpc hrcv h1 | drop hpc hrcv h1 h5 h2 => exact ⟨le_rfl, le_rfl, Or.inl⟩
  | _ => exact ⟨le_rfl, le_rfl, fun h => nomatch h⟩

theorem Acked.step (hw : Acked w) (h : Steps P w e w') : Acked w' := by
  have hset : ∀ c s, s.pc.gone = (w.sub c).pc.gone → Acked (w.setSub c s) := by
    intro c s hs
    have hgone := goneSubs_setSub w c s
    refine ⟨hw.count.trans ?_, hw.out⟩
    omega
  cases h with
  | tick => exact ⟨hw.count, hw.out⟩
  | main h =>
    obtain ⟨hle, hmono, hout⟩ := h.acked
    have hgone : w'.goneSubs = w.goneSubs := by
      obtain ⟨q₁, u₁, v₁, h₁⟩ := h.reached .one
      obtain ⟨q₂, u₂, v₂, h₂⟩ := h.reached .two
      rw [goneSubs, h₁, h₂]
      rfl
    refine ⟨hle.trans (hw.count.trans hgone.ge), fun hpc => ?_⟩
    rcases hout hpc with hold | hnew
    · exact (hw.out hold).trans hmono
    · exact hnew.trans hmono
  | @sub c w' h =>
    cases h with
    | own hs => exact hset c _ hs.gone
    | pass hpc h0 hgate =>
      have hs := hset c { w.sub c with lastTick := (w.sub c).now, pc := .drain true }
        (by rw [hpc]; rfl)
      exact ⟨hs.count, hs.out⟩
    | @write k n t hpc =>
      have hs := hset c { w.sub c with pc := Sub.behindWrite k } (by rw [hpc]; cases k <;> rfl)
      exact ⟨hs.count, hs.out⟩
    | ack hpc =>
      have hgone : (w.setSub c { w.sub c with pc := .closing }).goneSubs + 0 = w.goneSubs + 1 := by
        have h := goneSubs_setSub w c { w.sub c with pc := .closing }
        rw [hpc] at h
        exact h
      have hcount := hw.count
      refine ⟨?_, hw.out⟩
      change w.main.subsTerminated + (acks (w.resp ++ [bareMsg 6])).length ≤
        (w.setSub c { w.sub c with pc := .closing }).goneSubs
      have hacks : (acks (w.resp ++ [bareMsg 6])).length = (acks w.resp).length + 1 := by
        rw [acks, List.filter_append, List.length_append]
        rfl
      omega
  | @steal c hsig hpc =>
    have hplace := (Happens.steal hsig hpc : Happens w c _ _).place (fun h => nomatch h)
    have hs := hset c ((w.sub c).stealHandler w.clock).1 (by rw [hplace.1])
    refine ⟨?_, hs.out⟩
    have hnone : acks [((w.sub c).stealHandler w.clock).2] = [] := by
      rcases (w.sub c).stealHandler_cases w.clock with ⟨-, v, r, hr⟩ | ⟨x, q, -, v, r, hr⟩
      · rw [hr]
        rfl
      · rw [hr]
        rfl
    have hacks : acks (w.steal c).resp = acks w.resp := by
      change acks (w.resp ++ [((w.sub c).stealHandler w.clock).2]) = acks w.resp
      rw [acks, List.filter_append, ← acks, ← acks, hnone, List.append_nil]
    rw [hacks]
    exact hs.count
  | @stall c hsig hpc =>
    have hplace := (Happens.stall hsig hpc : Happens w c _ _).place (fun h => nomatch h)
    exact hset c _ (by rw [hplace.1])
  | @child c s hs =>
    have hplace := (Happens.child hs : Happens w c _ _).place (fun h => nomatch h)
    exact hset c _ (by rw [hplace.1])
  | observe hq hs hd => exact ⟨hw.count, hw.out⟩
  | send ht hq hdue => exact ⟨hw.count, hw.out⟩
  | sync ht hq => exact ⟨hw.count, hw.out⟩
  | last hq ht hd => exact ⟨hw.count, hw.out⟩

theorem start_acked (l : List ProcessData) : Acked (start l) :=
  ⟨le_rfl, fun h => nomatch h⟩

theorem reachable_acked (h : (system P).Reachable w) : Acked w := by
  refine h.invariant ?_ ?_
  · rintro _ ⟨l, -, rfl⟩
    exact start_acked l
  · rintro w w' hw ⟨e, h⟩
    exact hw.step (next_cases h)

/-- **When the main scheduler has left its loop, so have both sub-schedulers.** -/
theorem Acked.gone (hw : Acked w) (hout : w.main.pc.out = true) (c : Cpu) :
    (w.sub c).pc.gone = 1 := by
  have hcount := hw.count
  have htwo := hw.out hout
  have h₁ := (w.sub .one).pc.gone_le
  have h₂ := (w.sub .two).pc.gone_le
  rw [goneSubs] at hcount
  cases c
  · omega
  · omega

/-- What the main scheduler does with the gate, and with its tick. -/
theorem Mains.gate (h : Mains P w w') : w'.clock = w.clock ∧
    ((w.main.pc = .opening ∧ w'.main.now = w.main.now) ∨
      (w.main.pc = .leave ∧ w'.main.now = w.main.now) ∨
      (w.main.pc ≠ .opening ∧ w.main.pc ≠ .leave ∧ (w'.gate = w.gate ∨ w'.gate = 0) ∧
        (w'.main.now = w.main.now ∨ w'.main.now = w.clock))) := by
  have hpcs : ∀ {pc : MainPc}, w.main.pc = pc → pc ≠ .opening → pc ≠ .leave →
      w.main.pc ≠ .opening ∧ w.main.pc ≠ .leave := by
    rintro pc rfl ho hl
    exact ⟨ho, hl⟩
  cases h with
  | opening hpc => exact ⟨rfl, Or.inl ⟨hpc, rfl⟩⟩
  | done hpc => exact ⟨rfl, Or.inr (Or.inl ⟨hpc, rfl⟩)⟩
  | begin hpc hgo hnew =>
    obtain ⟨ho, hl⟩ := hpcs hpc nofun nofun
    exact ⟨rfl, Or.inr (Or.inr ⟨ho, hl, Or.inl rfl, Or.inr rfl⟩)⟩
  | shut hpc =>
    obtain ⟨ho, hl⟩ := hpcs hpc nofun nofun
    exact ⟨rfl, Or.inr (Or.inr ⟨ho, hl, Or.inr rfl, Or.inl rfl⟩)⟩
  | _ hpc =>
    obtain ⟨ho, hl⟩ := hpcs hpc nofun nofun
    exact ⟨rfl, Or.inr (Or.inr ⟨ho, hl, Or.inl rfl, Or.inl rfl⟩)⟩

/-- In a step of somebody else, a sub-scheduler stays where it is. -/
theorem Happens.stays (h : Happens w c e s) (he : e ≠ .sub c) : (w.sub c).Stays s := by
  obtain ⟨hpc, hnow, hlast⟩ := h.place he
  exact ⟨by rw [hpc], hnow, hlast⟩

/-- A sub-scheduler stays where it is in its own step, when it is elsewhere. -/
theorem stays_setSub {s : Sub} (hs : (w.sub c).Stays s) (d : Cpu) :
    (w.sub d).Stays ((w.setSub c s).sub d) := by
  by_cases hd : d = c
  · subst hd
    rw [setSub_sub_self]
    exact hs
  · rw [setSub_sub_of_ne _ _ hd]
    exact ⟨rfl, rfl, rfl⟩

end World

/-! ### The history of the gate -/

/-- A state with its history: the tick for which `FCFS_algo` has been completed last, which is
0 before the first time, and how often each of the sub-schedulers has gone through the gate
since it was opened. -/
structure Gated where
  world : World
  opened : ℤ
  passed : Cpu → ℕ

namespace Gated

open Dual.World TransitionSystem

variable {P : Params} {g g' : Gated} {w : World} {c : Cpu} {e : Event}

/-- A step and its trace in the history. -/
def record (g : Gated) (e : Event) (w : World) : Gated :=
  match e with
  | .main =>
    match g.world.main.pc with
    | .opening => { world := w, opened := g.world.main.now, passed := fun _ => 0 }
    | .leave => { world := w, opened := g.opened, passed := fun _ => 0 }
    | _ => { g with world := w }
  | .sub c =>
    if (g.world.sub c).pc = .gate ∧ 0 < (g.world.sub c).now then
      { g with world := w, passed := Function.update g.passed c (g.passed c + 1) }
    else { g with world := w }
  | _ => { g with world := w }

/-- The runs with their history, all of whose steps meet a condition. -/
def systemIf (P : Params) (C : Gated → Event → Prop) : TransitionSystem Gated where
  init g := (World.system P).init g.world ∧ g.opened = 0 ∧ g.passed = fun _ => 0
  step g g' := ∃ e w, World.next P g.world e = some w ∧ C g e ∧ g' = g.record e w

/-- The runs with their history. -/
def system (P : Params) : TransitionSystem Gated := systemIf P fun _ _ => True

/-- **What the gate promises**: a sub-scheduler acts for a tick only when `FCFS_algo` has been
completed for this tick or a later one, and it goes through once at most between two openings. -/
def Kept (g : Gated) : Prop :=
  ∀ c, ((g.world.sub c).pc.behindGate = true → 0 < (g.world.sub c).now →
    (g.world.sub c).now ≤ g.opened) ∧ g.passed c ≤ 1

/-- **No old permits and no new ticks**: when a sub-scheduler takes up a tick while there are
permits, they are for this tick and it has not had one of them; and when the main scheduler
opens the gate, nobody waits with a later tick than its own. -/
def Fresh (g : Gated) : Event → Prop
  | .sub c => (g.world.sub c).pc = .tick → 0 < g.world.clock →
      g.world.clock ≠ (g.world.sub c).lastTick → g.world.gate ≠ 0 →
      g.world.clock = g.opened ∧ g.passed c = 0
  | .main => g.world.main.pc.opens = true → ∀ c, (g.world.sub c).pc.waiting = true →
      (g.world.sub c).now ≤ g.world.main.now
  | _ => True

instance (g : Gated) (e : Event) : Decidable (g.Fresh e) :=
  match e with
  | .main => inferInstanceAs (Decidable (_ → ∀ _, _ → _))
  | .sub _ => inferInstanceAs (Decidable (_ → _ → _ → _ → _ ∧ _))
  | .tick | .steal _ | .stall _ | .child _ | .observe | .send | .sync | .last =>
    inferInstanceAs (Decidable True)

/-- The invariant. -/
structure Sound (g : Gated) : Prop where
  zero_le : 0 ≤ g.opened
  opened_le : g.opened ≤ g.world.main.now
  now_le : g.world.main.now ≤ g.world.clock
  last : ∀ c, (g.world.sub c).lastTick ≤ g.opened
  going : ∀ c, (g.world.sub c).pc.waiting = false → (g.world.sub c).now ≤ g.opened
  waiting : ∀ c, (g.world.sub c).pc.waiting = true → g.world.gate ≠ 0 → 0 < (g.world.sub c).now →
    (g.world.sub c).now ≤ g.opened ∧ g.passed c = 0
  once : ∀ c, g.passed c ≤ 1

/-- The invariant gives the promise. -/
theorem Sound.kept (hg : g.Sound) : g.Kept :=
  fun c => ⟨fun hpc _ => hg.going c (SubPc.not_waiting hpc), hg.once c⟩

/-- Moves that leave everybody on his side of the gate, and do not open it. -/
theorem Sound.of_stays (hg : g.Sound) (hplace : ∀ c, (g.world.sub c).Stays (w.sub c))
    (hgate : w.gate = g.world.gate ∨ w.gate = 0) (hnow : g.world.main.now ≤ w.main.now)
    (hclk : w.main.now ≤ w.clock) : Sound { g with world := w } where
  zero_le := hg.zero_le
  opened_le := hg.opened_le.trans hnow
  now_le := hclk
  last c := (hplace c).2.2 ▸ hg.last c
  going c hpc := by
    obtain ⟨h₁, h₂, -⟩ := hplace c
    rw [h₂]
    exact hg.going c (h₁ ▸ hpc)
  waiting c hpc hne h0 := by
    obtain ⟨h₁, h₂, -⟩ := hplace c
    have hsame : w.gate = g.world.gate := hgate.resolve_right hne
    rw [h₂] at h0 ⊢
    exact hg.waiting c (h₁ ▸ hpc) (hsame ▸ hne) h0
  once := hg.once

/-- The gate is opened, while nobody waits with a later tick. -/
theorem Sound.opening (hg : g.Sound) (hplace : ∀ c, (g.world.sub c).Stays (w.sub c)) {t : ℤ}
    (ht : g.opened ≤ t) (hwait : ∀ c, (g.world.sub c).pc.waiting = true →
      (g.world.sub c).now ≤ t) (hnow : t ≤ w.main.now) (hclk : w.main.now ≤ w.clock) :
    Sound { world := w, opened := t, passed := fun _ => 0 } where
  zero_le := hg.zero_le.trans ht
  opened_le := hnow
  now_le := hclk
  last c := ((hplace c).2.2 ▸ hg.last c).trans ht
  going c hpc := by
    obtain ⟨h₁, h₂, -⟩ := hplace c
    rw [h₂]
    exact (hg.going c (h₁ ▸ hpc)).trans ht
  waiting c hpc _ _ := by
    obtain ⟨h₁, h₂, -⟩ := hplace c
    rw [h₂]
    exact ⟨hwait c (h₁ ▸ hpc), rfl⟩
  once c := Nat.zero_le 1

/-- A sub-scheduler moves without a permit. -/
theorem Sound.own (hg : g.Sound) (hfresh : g.Fresh (.sub c)) {rem : ℤ} {s : Sub}
    (hs : (g.world.sub c).Moves g.world.clock rem s) :
    Sound { g with world := g.world.setSub c s } := by
  have hother : ∀ d, d ≠ c → (g.world.setSub c s).sub d = g.world.sub d :=
    fun d hd => setSub_sub_of_ne _ _ hd
  refine ⟨hg.zero_le, hg.opened_le, hg.now_le, fun d => ?_, fun d => ?_, fun d => ?_, hg.once⟩
  all_goals
    by_cases hd : d = c
    swap
    · dsimp only
      rw [hother d hd]
      first | exact hg.last d | exact hg.going d | exact hg.waiting d
    subst hd
    dsimp only
    rw [setSub_sub_self]
    have hlast := hg.last d
    have hzero := hg.zero_le
  · rcases hs.ticks with ⟨-, -, -, -, h⟩ | ⟨-, -, h⟩ | ⟨-, h0, -, h⟩ | ⟨-, -, h⟩ <;> omega
  · intro hpc
    rcases hs.ticks with ⟨-, -, h, -⟩ | ⟨-, h, -⟩ | ⟨-, h0, h, -⟩ | ⟨hw, h, -⟩
    · rw [h] at hpc
      exact nomatch hpc
    · omega
    · omega
    · rw [h]
      exact hg.going d (hw.symm.trans hpc)
  · intro hpc hgate h0
    rcases hs.ticks with ⟨hat, hnew, -, h, -⟩ | ⟨h, -⟩ | ⟨h, -⟩ | ⟨hw, h, -⟩
    · rw [h] at h0
      obtain ⟨hclk, hpass⟩ := hfresh hat h0 hnew hgate
      exact ⟨(h.trans hclk).le, hpass⟩
    · exact nomatch h.symm.trans hpc
    · exact nomatch h.symm.trans hpc
    · rw [h] at h0 ⊢
      exact hg.waiting d (hw.symm.trans hpc) hgate h0

/-- A sub-scheduler takes a permit. -/
theorem Sound.pass (hg : g.Sound) (hpc : (g.world.sub c).pc = .gate)
    (h0 : 0 < (g.world.sub c).now) (hgate : g.world.gate ≠ 0) :
    Sound { g with
      world := { g.world.setSub c
        { g.world.sub c with lastTick := (g.world.sub c).now, pc := .drain true } with
        gate := g.world.gate - 1 }
      passed := Function.update g.passed c (g.passed c + 1) } := by
  obtain ⟨hle, hnone⟩ := hg.waiting c (by rw [hpc]; rfl) hgate h0
  have hself := setSub_sub_self g.world c
    { g.world.sub c with lastTick := (g.world.sub c).now, pc := .drain true }
  refine ⟨hg.zero_le, hg.opened_le, hg.now_le, fun d => ?_, fun d => ?_, fun d => ?_, fun d => ?_⟩
  all_goals
    dsimp only
    by_cases hd : d = c
    swap
    · first | rw [setSub_sub_of_ne _ _ hd] | skip
      first | rw [Function.update_of_ne hd] | skip
      first
        | exact hg.last d
        | exact hg.going d
        | exact fun h₁ h₂ => hg.waiting d h₁ (by omega)
        | exact hg.once d
    subst hd
  · rw [hself]
    exact hle
  · intro _
    rw [hself]
    exact hle
  · intro h
    rw [hself] at h
    exact nomatch h
  · rw [Function.update_self, hnone]

/-- **A step of a run that takes up no tick with an old permit.** -/
theorem Sound.step (hg : g.Sound) (hacked : Acked g.world) (hfresh : g.Fresh e)
    (h : Steps P g.world e w) : (g.record e w).Sound := by
  have hall := h.happens
  cases h with
  | tick =>
    refine hg.of_stays (fun c => ⟨rfl, rfl, rfl⟩) (Or.inl rfl) le_rfl ?_
    have := hg.now_le
    dsimp only
    omega
  | main h =>
    have hplace : ∀ c, (g.world.sub c).Stays (w.sub c) := fun c =>
      (Happens.reached (h.reached c) : Happens g.world c .main _).stays fun h => nomatch h
    obtain ⟨hclk, ⟨hpc, hnow⟩ | ⟨hpc, hnow⟩ | ⟨ho, hl, hgate, hnow⟩⟩ := h.gate
    · have hle := hg.now_le
      have hsound := hg.opening hplace hg.opened_le (hfresh (by rw [hpc]; rfl)) hnow.ge (by omega)
      simpa only [record, hpc] using hsound
    · have hle := hg.now_le
      have hout : g.world.main.pc.out = true := by rw [hpc]; rfl
      have hsound := hg.opening hplace le_rfl (fun c hwait =>
        nomatch (SubPc.not_waiting_of_gone (hacked.gone hout c)).symm.trans hwait)
        (hnow.symm ▸ hg.opened_le) (by omega)
      simpa only [record, hpc] using hsound
    · have hle := hg.now_le
      have hrec : g.record .main w = { g with world := w } := by
        rw [record]
        split
        · exact absurd ‹_› ho
        · exact absurd ‹_› hl
        · rfl
      rw [hrec]
      exact hg.of_stays hplace hgate (by omega) (by omega)
  | @sub c _ h =>
    cases h with
    | own hs =>
      rw [record, if_neg fun hc => absurd hc.2 (not_lt.mpr (hs.now_le hc.1))]
      exact hg.own hfresh hs
    | pass hpc h0 hgate =>
      rw [record, if_pos ⟨hpc, h0⟩]
      exact hg.pass hpc h0 hgate
    | @write k n t hpc =>
      have hne : (g.world.sub c).pc ≠ .gate := fun h => nomatch hpc.symm.trans h
      rw [record, if_neg fun hc => hne hc.1]
      refine hg.of_stays (stays_setSub ⟨?_, rfl, rfl⟩) (Or.inl rfl) le_rfl hg.now_le
      rw [hpc]
      cases k <;> rfl
    | ack hpc =>
      have hne : (g.world.sub c).pc ≠ .gate := fun h => nomatch hpc.symm.trans h
      rw [record, if_neg fun hc => hne hc.1]
      exact hg.of_stays (stays_setSub ⟨by rw [hpc]; rfl, rfl, rfl⟩) (Or.inl rfl) le_rfl hg.now_le
  | steal hsig hpc =>
    exact hg.of_stays (fun c => (hall c).stays fun h => nomatch h) (Or.inl rfl) le_rfl hg.now_le
  | stall hsig hpc =>
    exact hg.of_stays (fun c => (hall c).stays fun h => nomatch h) (Or.inl rfl) le_rfl hg.now_le
  | child hs =>
    exact hg.of_stays (fun c => (hall c).stays fun h => nomatch h) (Or.inl rfl) le_rfl hg.now_le
  | _ => exact hg.of_stays (fun c => ⟨rfl, rfl, rfl⟩) (Or.inl rfl) le_rfl hg.now_le

theorem record_world (g : Gated) (e : Event) (w : World) : (g.record e w).world = w := by
  cases e with
  | main =>
    rw [record]
    split <;> rfl
  | sub c =>
    rw [record]
    split_ifs <;> rfl
  | _ => rfl

/-- Without the history, a run is a run. -/
theorem reachable_of_if {C : Gated → Event → Prop} (h : (systemIf P C).Reachable g) :
    (World.system P).Reachable g.world := by
  have hinit : ∀ g, (systemIf P C).init g → (World.system P).init g.world := fun g hg => hg.1
  refine h.map hinit ?_
  rintro g _ - ⟨e, w, h, -, rfl⟩
  rw [record_world]
  exact Or.inl ⟨e, h⟩

theorem reachable_sound (h : (systemIf P Fresh).Reachable g) : g.Sound := by
  refine h.invariant_of (fun g hg => reachable_acked (reachable_of_if hg)) ?_ ?_
  · rintro g ⟨⟨l, -, hw⟩, ho, hp⟩
    refine ⟨ho.ge, ?_, ?_, fun c => ?_, fun c => ?_, fun c => ?_, fun c => ?_⟩ <;>
      simp [hw, ho, hp, World.start, Main.init, Sub.init, SubPc.waiting]
  · rintro g g' hacked hg ⟨e, w, h, hfresh, rfl⟩
    exact hg.step hacked hfresh (next_cases h)

/-- **The gate keeps its promise** in every run in which no sub-scheduler takes up a tick with
an old permit at hand, or waits with a later tick than the one the gate is opened for. -/
theorem fresh_kept (h : (systemIf P Fresh).Reachable g) : g.Kept :=
  (reachable_sound h).kept

/-! ### Explicit runs -/

/-- The next state of a run, with its history. -/
def play (P : Params) (g : Gated) (e : Event) : Option Gated :=
  (World.next P g.world e).map (g.record e)

/-- The next state, if the step takes up no tick with an old permit. -/
def playFresh (P : Params) (g : Gated) (e : Event) : Option Gated :=
  if g.Fresh e then g.play P e else none

/-- At the start. -/
def start (l : List ProcessData) : Gated where
  world := World.start l
  opened := 0
  passed := fun _ => 0

theorem play_step (s : Gated) (e : Event) (t : Gated) (h : s.play P e = some t) :
    (system P).step s t := by
  obtain ⟨w, hw, rfl⟩ := Option.map_eq_some_iff.mp h
  exact ⟨e, w, hw, trivial, rfl⟩

theorem playFresh_step (s : Gated) (e : Event) (t : Gated) (h : s.playFresh P e = some t) :
    (systemIf P Fresh).step s t := by
  rw [playFresh] at h
  split_ifs at h with hfresh
  obtain ⟨w, hw, rfl⟩ := Option.map_eq_some_iff.mp h
  exact ⟨e, w, hw, hfresh, rfl⟩

/-- The first tick: a process is routed, the gate is opened, and the first sub-scheduler goes
through it and starts the process. -/
def gateRun : List Event :=
  [.tick, .observe, .send, .sync] ++ List.replicate 10 .main ++ List.replicate 25 (.sub .one)

/-- The gate is passed in a run that meets the condition. -/
theorem fresh_kept_first : ∃ g, playAll (playFresh { N := 2, M := 0 }) (start [soleProcess 0])
    gateRun = some g ∧ g.passed .one = 1 ∧ g.Kept := by
  have hrun : (playAll (playFresh { N := 2, M := 0 }) (start [soleProcess 0]) gateRun).map
      (fun g => g.passed .one) = some 1 := by
    decide +kernel
  obtain ⟨g, hg, hp⟩ := Option.map_eq_some_iff.mp hrun
  have hstart : (systemIf { N := 2, M := 0 } Fresh).Reachable (start [soleProcess 0]) :=
    .init ⟨⟨_, CpuScheduler.World.workload_sole 0, rfl⟩, rfl, rfl⟩
  exact ⟨g, hg, hp, fresh_kept (hstart.playAll playFresh_step hg)⟩

/-- **A sub-scheduler overtakes the main scheduler**: in the next tick it takes up the new tick
before the main scheduler does, and finds the permit of the other one. -/
theorem not_kept : ¬∀ g, (system { N := 2, M := 0 }).Reachable g → g.Kept := by
  intro hall
  have hrun : (playAll (play { N := 2, M := 0 }) (start [soleProcess 0])
      (gateRun ++ [.tick, .sub .one, .sub .one, .sub .one])).map (fun g =>
        ((g.world.sub .one).pc.behindGate, (g.world.sub .one).now, g.opened, g.passed .one)) =
      some (true, 2, 1, 2) := by
    decide +kernel
  obtain ⟨g, hg, h⟩ := Option.map_eq_some_iff.mp hrun
  have hstart : (system { N := 2, M := 0 }).Reachable (start [soleProcess 0]) :=
    .init ⟨⟨_, CpuScheduler.World.workload_sole 0, rfl⟩, rfl, rfl⟩
  have hkept := (hall g (hstart.playAll play_step hg) .one).2
  simp only [Prod.mk.injEq] at h
  omega

end Gated

end Dual

end CpuScheduler
