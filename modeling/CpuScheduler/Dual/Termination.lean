import CpuScheduler.Dual.Custody
import CpuScheduler.Dual.Gate
import CpuScheduler.Dual.Stalls

/-!
# When the parties leave their loops

The main scheduler tells the sub-schedulers that no process will come
(`CpuScheduler.Dual.World.Told`), a sub-scheduler leaves its loop when it has nothing to do and
the load table says the same of the other one, and the main scheduler leaves its loop when both
have done so.

The load table may be stale, and the reply that `check_threshold` waits for may be a termination
message. Where neither does any harm (`CpuScheduler.Dual.World.Orderly`), every process that has
been routed is in exactly one place, what `check_threshold` sends on is the reply to its command,
nobody sends a process to a sub-scheduler that has left its loop, and in the end all that have been
routed are finished (`CpuScheduler.Dual.World.Settled`).

| invariant | what it is for |
|-----------|----------------|
| `CpuScheduler.Dual.World.Given` | the reply is what the busier CPU has given back |
| `CpuScheduler.Dual.World.Early` | the last message does not come in the turn for tick 0 |
| `CpuScheduler.Dual.World.Told` | nothing is routed once the sub-schedulers have been told |
| `CpuScheduler.Dual.World.Over` | nothing is left once one of them has left its loop |
-/

namespace CpuScheduler

namespace Dual

open Fallible TransitionSystem

/-- In `FCFS_algo`, with the processes of a tick to be routed. -/
def MainPc.routing : MainPc → Bool
  | .load | .route _ => true
  | _ => false

/-- Between the two termination messages. -/
def MainPc.telling : MainPc → Bool
  | .term .two => true
  | _ => false

/-- Out of the loop. -/
def SubPc.left : SubPc → Bool
  | .update .leave | .total .leave _ _ | .write .leave _ _ | .ack | .closing | .exited => true
  | _ => false

theorem SubPc.left_of_gone {pc : SubPc} (h : pc.gone = 1) : pc.left = true := by
  cases pc <;> first | rfl | exact nomatch h

namespace Sub

variable {clk rem : ℤ} {s s' : Sub}

/-! ### Leaving the loop -/

/-- **The loop is left at its condition**, and not entered again. -/
theorem Moves.left (h : s.Moves clk rem s') : s'.pc.left = true ↔
    s.pc.left = true ∨ (s.pc = .cond ∧ s.goesOn = false ∧ s'.pc.left = true) := by
  have hout : ∀ {pc : SubPc}, s.pc = pc → s'.pc.left = pc.left → (pc = .cond → s.goesOn = true) →
      (s'.pc.left = true ↔
        s.pc.left = true ∨ (s.pc = .cond ∧ s.goesOn = false ∧ s'.pc.left = true)) := by
    rintro pc rfl he hgo
    refine ⟨fun h => Or.inl (he ▸ h), ?_⟩
    rintro (h | ⟨hc, hno, -⟩)
    · exact he ▸ h
    · exact nomatch (hgo hc).symm.trans hno
  cases h with
  | quit hpc hgo => exact ⟨fun _ => Or.inr ⟨hpc, hgo, rfl⟩, fun _ => rfl⟩
  | turn hpc hgo => exact hout hpc rfl fun _ => hgo
  | @drained b hpc hq | @last b pd q hpc hq h5 => cases b <;> exact hout hpc rfl nofun
  | drop hpc hq h1 h5 => exact hout hpc (congrArg SubPc.left hpc) nofun
  | @update k hpc => cases k <;> exact hout hpc rfl nofun
  | @total k n r hpc => cases k <;> exact hout hpc rfl nofun
  | _ hpc => exact hout hpc rfl nofun

/-! ### The messages -/

/-- A sub-scheduler takes messages out of its queue. -/
theorem Moves.msgq_subset (h : s.Moves clk rem s') : s'.msgq ⊆ s.msgq := by
  cases h with
  | fetch hpc hq h1 => exact hq ▸ List.subset_cons_self _ _
  | last hpc hq h5 => exact hq ▸ List.subset_cons_self _ _
  | drop hpc hq h1 h5 => exact hq ▸ List.subset_cons_self _ _
  | finish hpc hfin hs =>
    obtain ⟨x, l, p, -, -, rfl⟩ := finishLogic_eq_ok hs
    exact List.Subset.refl _
  | resume hpc =>
    obtain ⟨st, y, l, ch, hs, -⟩ := s.endStall_eq clk
    rw [hs]
    exact List.Subset.refl _
  | run hpc hs =>
    obtain ⟨x, y, l, ch, -, -, rfl⟩ := runProcess_eq_ok hs
    exact List.Subset.refl _
  | permit hpc =>
    obtain ⟨n, hs⟩ := s.permit_eq
    rw [hs]
    exact List.Subset.refl _
  | _ => exact List.Subset.refl _

/-- The last message has been received, or is on its way. -/
def Warned (s : Sub) : Prop :=
  s.receivingProcesses = false ∨ ∃ pd ∈ s.msgq, pd.mtype = 5

theorem receivingProcesses_drainAll {f : Sub → ProcessData → Sub}
    (hf : ∀ s pd, (f s pd).receivingProcesses = s.receivingProcesses) :
    ∀ (q : List ProcessData) (s : Sub), (drainAll f q s).receivingProcesses = false →
      s.receivingProcesses = false ∨ ∃ pd ∈ q, pd.mtype = 5 := by
  intro q
  induction q with
  | nil => exact fun s h => Or.inl h
  | cons pd q ih =>
    intro s h
    rw [drainAll] at h
    by_cases h5 : pd.mtype = 5
    · exact Or.inr ⟨pd, List.mem_cons_self, h5⟩
    · rw [if_neg h5] at h
      rcases ih _ h with hs | ⟨d, hd, hd5⟩
      · refine Or.inl ?_
        by_cases h1 : pd.mtype = 1
        · rw [if_pos h1, hf] at hs
          exact hs
        · rw [if_neg h1] at hs
          exact hs
      · exact Or.inr ⟨d, List.mem_cons_of_mem _ hd, hd5⟩

theorem warned_moves (h : s.Moves clk rem s') (hw : s'.Warned) : s.Warned := by
  cases h with
  | @fetch b pd q hpc hq h1 =>
    rcases hw with hw | ⟨d, hd, h5⟩
    · exact Or.inl hw
    · exact Or.inr ⟨d, hq ▸ List.mem_cons_of_mem _ hd, h5⟩
  | @last b pd q hpc hq h5 => exact Or.inr ⟨pd, hq ▸ List.mem_cons_self, h5⟩
  | @drop b pd q hpc hq h1 h5 =>
    rcases hw with hw | ⟨d, hd, h5⟩
    · exact Or.inl hw
    · exact Or.inr ⟨d, hq ▸ List.mem_cons_of_mem _ hd, h5⟩
  | finish hpc hfin hs =>
    obtain ⟨x, l, p, -, -, rfl⟩ := finishLogic_eq_ok hs
    exact hw
  | resume hpc =>
    obtain ⟨st, y, l, ch, hs, -⟩ := s.endStall_eq clk
    rw [hs] at hw
    exact hw
  | run hpc hs =>
    obtain ⟨x, y, l, ch, -, -, rfl⟩ := runProcess_eq_ok hs
    exact hw
  | permit hpc =>
    obtain ⟨n, hs⟩ := s.permit_eq
    rw [hs] at hw
    exact hw
  | _ => exact hw

theorem warned_stallSig (hw : (s.stallSig clk).Warned) : s.Warned := by
  have hmsg : (s.stallSig clk).msgq = left s.msgq := by
    obtain ⟨y, v, r, l, ch, hs, -⟩ := s.stallSig_eq clk
    rw [hs]
  rcases hw with hw | ⟨d, hd, h5⟩
  · have hcurrent : (s.stallCurrent clk).receivingProcesses = s.receivingProcesses := by
      rw [stallCurrent]
      split
      · rfl
      · dsimp only
        split_ifs <;> rfl
    have hsame : (s.stallCurrent clk).msgq = s.msgq := by
      rw [stallCurrent]
      split
      · rfl
      · dsimp only
        split_ifs <;> rfl
    have h := receivingProcesses_drainAll (f := fun s pd => (s.noteArrival pd).receive pd)
      (fun _ _ => rfl) (s.stallCurrent clk).msgq
      { s.stallCurrent clk with stalled := true, sigusr2 := false } hw
    change (s.stallCurrent clk).receivingProcesses = false ∨ _ at h
    rw [hsame, hcurrent] at h
    exact h
  · exact Or.inr ⟨d, mem_of_mem_left (hmsg ▸ hd), h5⟩

theorem warned_stealHandler (hw : (s.stealHandler clk).1.Warned) : s.Warned := by
  have hmsg : (s.stealHandler clk).1.msgq = left s.msgq := by
    rcases s.stealHandler_cases clk with ⟨-, v, r, hs⟩ | ⟨x, q, -, v, r, hs⟩
    · rw [hs]
    · rw [hs]
  rcases hw with hw | ⟨d, hd, h5⟩
  · have hrear : ∀ t : Sub, (t.stealRear clk).1.receivingProcesses = t.receivingProcesses := by
      intro t
      rw [stealRear]
      split <;> rfl
    rw [stealHandler, hrear] at hw
    exact receivingProcesses_drainAll (f := receive) (fun _ _ => rfl) s.msgq s hw
  · exact Or.inr ⟨d, mem_of_mem_left (hmsg ▸ hd), h5⟩

end Sub

namespace World

variable {P : Params} {w w' : World} {c : Cpu} {e : Event} {s : Sub} {p : Prop}

/-- Only the main scheduler sends messages to a sub-scheduler. -/
theorem Steps.msgq_subset (h : Steps P w e w') (he : e ≠ .main) (d : Cpu) :
    (w'.sub d).msgq ⊆ (w.sub d).msgq := by
  have hset : ∀ (c : Cpu) {s : Sub}, s.msgq ⊆ (w.sub c).msgq →
      ((w.setSub c s).sub d).msgq ⊆ (w.sub d).msgq := by
    intro c s hs
    by_cases hd : d = c
    · subst hd
      rw [setSub_sub_self]
      exact hs
    · rw [setSub_sub_of_ne _ _ hd]
      exact List.Subset.refl _
  cases h with
  | main h => exact absurd rfl he
  | @sub c _ h =>
    cases h with
    | own hs => exact hset c hs.msgq_subset
    | pass hpc h0 hgate => exact hset c (List.Subset.refl _)
    | write hpc => exact hset c (List.Subset.refl _)
    | ack hpc => exact hset c (List.Subset.refl _)
  | @steal c hsig hpc =>
    refine hset c ?_
    rcases (w.sub c).stealHandler_cases w.clock with ⟨-, v, r, hs⟩ | ⟨x, q, -, v, r, hs⟩
    · rw [hs]
      exact fun _ => mem_of_mem_left
    · rw [hs]
      exact fun _ => mem_of_mem_left
  | @stall c hsig hpc =>
    refine hset c ?_
    obtain ⟨y, v, r, l, ch, hs, -⟩ := (w.sub c).stallSig_eq w.clock
    rw [hs]
    exact fun _ => mem_of_mem_left
  | @child c s hs =>
    refine hset c ?_
    obtain ⟨fin, sem, rt, ch, rfl⟩ := Sub.childStep_eq_some hs
    exact List.Subset.refl _
  | _ => exact List.Subset.refl _

theorem mem_of_sendProcessMsg {b d : Cpu} {x pd : ProcessData} {t : ℤ}
    (h : x ∈ ((w.sendProcessMsg b pd t).sub d).msgq) : x ∈ (w.sub d).msgq ∨ x.mtype = t := by
  rw [sendProcessMsg] at h
  by_cases hd : d = b
  · subst hd
    rw [setSub_sub_self] at h
    rcases List.mem_append.mp h with h | h
    · exact Or.inl h
    · rw [List.mem_singleton.mp h]
      exact Or.inr rfl
  · rw [setSub_sub_of_ne _ _ hd] at h
    exact Or.inl h

/-! ### The reply -/

/-- What the main scheduler sends on is a reply with a process. -/
theorem Balanced.mtype_reply (h : w.Balanced p) {b : Cpu} {read : Load} {resp : ProcessData}
    {rest : List ProcessData} (hpc : w.main.pc = .await b read) (hrcv : w.resp = resp :: rest)
    (h6 : resp.mtype ≠ 6) (h12 : resp.mtype ≠ 12) : resp.mtype = 11 :=
  ((h.await hpc hrcv h6).2.2.resolve_left h12).1

/-- **The reply is about the command**: the process in it is the last that the busier CPU has
given back. -/
structure Given (w : World) : Prop where
  replied : ∀ b read, w.main.pc = .await b read → ∀ pd ∈ w.resp, pd.mtype = 11 →
    (w.sub b).stolen.getLast? = some pd.id
  sent : ∀ b read resp, w.main.pc = .resend b read resp →
    resp.mtype = 11 ∧ (w.sub b).stolen.getLast? = some resp.id

theorem Happens.stolen (h : Happens w c e s) (he : e ≠ .steal c) :
    s.stolen = (w.sub c).stolen := by
  cases h with
  | reached hs =>
    obtain ⟨q, u, v, rfl⟩ := hs
    rfl
  | own hs =>
    rcases hs.queue with ⟨b, pd, rfl⟩ | ⟨x, q, -, rfl⟩ | ⟨⟨-, -, -, ht⟩, -⟩
    · rfl
    · rfl
    · exact ht
  | steal hsig hpc => exact absurd rfl he
  | stall hsig hpc =>
    obtain ⟨y, v, r, l, ch, hs, -⟩ := (w.sub c).stallSig_eq w.clock
    rw [hs]
  | child hs =>
    obtain ⟨fin, sem, rt, ch, rfl⟩ := Sub.childStep_eq_some hs
    rfl
  | _ => rfl

theorem not_mem_of_replies {l : List ProcessData} (h : replies l = []) {pd : ProcessData}
    (hpd : pd ∈ l) : pd.mtype ≠ 11 := by
  intro h11
  have hmem : pd ∈ replies l := List.mem_filter.mpr ⟨hpd, by simp [h11]⟩
  rw [h] at hmem
  exact nomatch hmem

theorem Given.mains (h : w.Given) (hb : w.Balanced p) (hm : Mains P w w')
    (hans : w.Answered .main) : w'.Given := by
  -- Most moves do not end where there is a reply.
  have hplain : w'.main.pc.awaiting = false → (∀ b read resp, w'.main.pc ≠ .resend b read resp) →
      w'.Given := by
    intro ha hr
    refine ⟨fun b read hpc => ?_, fun b read resp hpc => absurd hpc (hr b read resp)⟩
    rw [hpc] at ha
    cases ha
  have hbehind : ∀ now, (Main.behindReceive now).awaiting = false ∧
      ∀ b read resp, Main.behindReceive now ≠ .resend b read resp := by
    intro now
    rw [Main.behindReceive]
    split_ifs
    · exact ⟨rfl, (by simp)⟩
    · exact ⟨rfl, (by simp)⟩
  have hstay : ∀ {pc : MainPc}, w.main.pc = pc → w'.main.pc = w.main.pc → pc.awaiting = false →
      (∀ b read resp, pc ≠ .resend b read resp) → w'.Given := by
    rintro pc rfl he ha hr
    exact hplain (he ▸ ha) fun b read resp hpc => hr b read resp (he ▸ hpc)
  cases hm with
  | spin hpc hgo hold => exact hstay hpc rfl rfl (by simp)
  | arrive hpc hrcv h1 | drop hpc hrcv h1 h5 h2 => exact hstay hpc rfl rfl (by simp)
  | shut hpc =>
    have hcase : (if w.main.receivingProcesses then MainPc.receive else
        Main.behindReceive w.main.now).awaiting = false ∧ ∀ b read resp,
        (if w.main.receivingProcesses then MainPc.receive else
          Main.behindReceive w.main.now) ≠ .resend b read resp := by
      split_ifs
      · exact ⟨rfl, (by simp)⟩
      · exact hbehind _
    exact hplain hcase.1 hcase.2
  | sync hpc hrcv h2 hnew | last hpc hrcv h5 => exact hplain (hbehind _).1 (hbehind _).2
  | @steal b read hpc =>
    have hquiet : w.Quiet := by
      rw [Balanced, hpc] at hb
      exact hb.1
    exact ⟨fun _ _ _ pd hpd h11 => absurd h11 (not_mem_of_replies hquiet.resp hpd),
      by rintro _ _ _ ⟨⟩⟩
  | @reply b read resp rest hpc hrcv h12 =>
    have h6 : resp.mtype ≠ 6 := hans (by rw [hpc]; rfl) resp (by rw [hrcv]; rfl)
    have h11 := hb.mtype_reply hpc hrcv h6 h12
    refine ⟨by rintro _ _ ⟨⟩, fun b' read' resp' hsend => ?_⟩
    obtain ⟨rfl, -, rfl⟩ := MainPc.resend.inj hsend
    exact ⟨h11, h.replied b read hpc resp (hrcv ▸ List.mem_cons_self) h11⟩
  | @bottom pc hpc hterm =>
    rcases hterm with ⟨-, -, rfl⟩ | ⟨-, rfl⟩
    · exact hplain rfl (by simp)
    · exact hplain rfl (by simp)
  | _ => exact hplain rfl (by rintro _ _ _ ⟨⟩)

theorem Given.step (h : w.Given) (hb : w.Balanced p) (hst : Steps P w e w')
    (hans : w.Answered e) : w'.Given := by
  by_cases hmain : e = .main
  · subst hmain
    cases hst with
    | main hm => exact h.mains hb hm hans
  have hm := hst.main_eq hmain
  by_cases hsteal : ∃ c, e = .steal c
  · obtain ⟨c, rfl⟩ := hsteal
    cases hst with
    | steal hsig hpc =>
      obtain ⟨read, hawait, -, hnone, -⟩ := hb.of_sigurg hsig
      refine ⟨fun b read' hpc' pd hpd h11 => ?_, fun b read' resp hpc' => ?_⟩
      · obtain ⟨rfl, -⟩ := MainPc.await.inj (hawait.symm.trans hpc')
        have hself : (w.steal c).sub c = ((w.sub c).stealHandler w.clock).1 := setSub_sub_self ..
        rw [hself]
        rcases List.mem_append.mp hpd with hpd | hpd
        · exact absurd h11 (not_mem_of_replies hnone hpd)
        · rw [List.mem_singleton.mp hpd] at h11 ⊢
          rcases (w.sub c).stealHandler_cases w.clock with ⟨-, v, r, hs⟩ | ⟨x, q, -, v, r, hs⟩
          · rw [hs] at h11
            exact absurd h11 (show (12 : ℤ) ≠ 11 by decide)
          · rw [hs]
            exact List.getLast?_concat
      · exact nomatch hawait.symm.trans hpc'
  · have hstolen : ∀ c, (w'.sub c).stolen = (w.sub c).stolen := fun c =>
      (hst.happens c).stolen fun he => hsteal ⟨c, he⟩
    have hresp : ∀ pd ∈ w'.resp, pd.mtype = 11 → pd ∈ w.resp := by
      intro pd hpd h11
      cases hst with
      | main hm => exact absurd rfl hmain
      | steal hsig hpc => exact absurd ⟨_, rfl⟩ hsteal
      | sub hs =>
        cases hs with
        | ack hpc =>
          rcases List.mem_append.mp hpd with hpd | hpd
          · exact hpd
          · rw [List.mem_singleton.mp hpd] at h11
            exact absurd h11 (show (6 : ℤ) ≠ 11 by decide)
        | _ => exact hpd
      | _ => exact hpd
    refine ⟨fun b read hpc pd hpd h11 => ?_, fun b read resp hpc => ?_⟩
    · rw [hstolen b]
      exact h.replied b read (hm ▸ hpc) pd (hresp pd hpd h11) h11
    · rw [hstolen b]
      exact h.sent b read resp (hm ▸ hpc)

/-! ### The first turn -/

/-- The main scheduler has not received a message for a tick. -/
def FirstTurn (w : World) : Prop :=
  (w.main.pc = .top ∧ w.main.lastTick = -1) ∨
    ((w.main.pc = .shut ∨ w.main.pc = .receive) ∧ w.main.now ≤ 0)

/-- **The last message is not received in the turn for tick 0**, in which nothing is routed, if a
process has been sent: there is a message for a tick behind the processes. -/
structure Early (w : World) : Prop where
  clock : 0 ≤ w.clock
  tick : (w.main.lastTick = -1 ∧ (w.main.pc = .top ∨ w.main.pc.out = true)) ∨ 0 ≤ w.main.lastTick
  past : w.main.lastTick ≤ w.clock
  current : ∀ t, w.gen.current = some t → 0 ≤ t
  syncs : ∀ pd ∈ w.msgq, pd.mtype = 2 → 0 ≤ pd.arrival
  done : (∃ pd ∈ w.msgq, pd.mtype = 5) → w.gen.done = true
  rest : w.gen.done = true → w.gen.queue = [] ∧ w.gen.current = none
  sent : w.gen.sent = [] → w.main.readyQueue = [] ∧ ∀ pd ∈ w.msgq, pd.mtype ≠ 1
  wait : w.FirstTurn → (∃ pd ∈ w.msgq, pd.mtype = 2) ∨ w.gen.current ≠ none ∨ w.gen.sent = []

/-- **The last message in the turn for tick 0**: there is nothing to be routed. -/
theorem Early.readyQueue (h : w.Early) (hpc : w.main.pc = .receive) (hnow : w.main.now ≤ 0)
    {msg : ProcessData} {rest : List ProcessData}
    (hrcv : MsgQueue.rcv ProcessData.mtype (-5) w.msgq = some (msg, rest)) (h5 : msg.mtype = 5) :
    w.main.readyQueue = [] := by
  obtain ⟨-, hmin, l, r, hq, -⟩ := MsgQueue.rcv_neg_eq_some (by decide) hrcv
  have hmem : msg ∈ w.msgq := hq ▸ List.mem_append_right l List.mem_cons_self
  have hcurrent := (h.rest (h.done ⟨msg, hmem, h5⟩)).2
  rcases h.wait (Or.inr ⟨Or.inr hpc, hnow⟩) with ⟨pd, hpd, h2⟩ | hne | hsent
  · have := hmin pd hpd
    omega
  · exact absurd hcurrent hne
  · exact (h.sent hsent).1

/-- A receive leaves the other messages. -/
theorem mem_rest_of_rcv {t : ℤ} {q rest : List ProcessData} {msg pd : ProcessData}
    (h : MsgQueue.rcv ProcessData.mtype t q = some (msg, rest)) (hpd : pd ∈ q) (hne : pd ≠ msg) :
    pd ∈ rest := by
  rcases List.mem_cons.mp ((MsgQueue.perm_of_rcv h).mem_iff.mp hpd) with h | h
  · exact absurd h hne
  · exact h

theorem Early.mains (h : w.Early) (hm : Mains P w w') : w'.Early := by
  obtain ⟨hclk, htick, hpast, hcur, hsync, hdone, hrest, hsent, hwait⟩ := h
  -- In a turn there is a tick.
  have hturn : ∀ {pc : MainPc}, w.main.pc = pc → pc ≠ .top → pc.out = false →
      0 ≤ w.main.lastTick := by
    rintro pc rfl htop hout
    rcases htick with ⟨-, h | h⟩ | h
    · exact absurd h htop
    · exact absurd (hout.symm.trans h) (by simp)
    · exact h
  -- A receive, which does not add a message.
  have hrcvd : ∀ {msg : ProcessData} {rest : List ProcessData} {m : Main}, w.main.pc = .receive →
      MsgQueue.rcv ProcessData.mtype (-5) w.msgq = some (msg, rest) →
      m.lastTick = w.main.lastTick → (w.gen.sent = [] → m.readyQueue = []) →
      (({ w with msgq := rest, main := m } : World).FirstTurn →
        (∃ pd ∈ rest, pd.mtype = 2) ∨ w.gen.current ≠ none ∨ w.gen.sent = []) →
      ({ w with msgq := rest, main := m } : World).Early := by
    intro msg rest m hpc hrcv hlast hready hw
    have hmem := (mem_of_rcv hrcv).2
    exact ⟨hclk, Or.inr (hlast.symm ▸ hturn hpc (by simp) rfl), hlast.symm ▸ hpast, hcur,
      fun pd hpd => hsync pd (hmem pd hpd),
      fun hex => hdone (hex.imp fun pd hpd => ⟨hmem pd hpd.1, hpd.2⟩), hrest,
      fun hs => ⟨hready hs, fun pd hpd => (hsent hs).2 pd (hmem pd hpd)⟩, hw⟩
  -- A receive in the first turn that takes another message.
  have hkeep : ∀ {msg : ProcessData} {rest : List ProcessData}, w.FirstTurn →
      MsgQueue.rcv ProcessData.mtype (-5) w.msgq = some (msg, rest) → msg.mtype ≠ 2 →
      (∃ pd ∈ rest, pd.mtype = 2) ∨ w.gen.current ≠ none ∨ w.gen.sent = [] := by
    intro msg rest hf hrcv h2
    rcases hwait hf with ⟨pd, hpd, hpd2⟩ | hw
    · refine Or.inl ⟨pd, mem_rest_of_rcv hrcv hpd ?_, hpd2⟩
      rintro rfl
      exact h2 hpd2
    · exact Or.inr hw
  have hbehind : ∀ now, Main.behindReceive now ≠ .top ∧ Main.behindReceive now ≠ .shut ∧
      Main.behindReceive now ≠ .receive := by
    intro now
    rw [Main.behindReceive]
    split_ifs
    · exact ⟨by simp, (by simp), (by simp)⟩
    · exact ⟨by simp, (by simp), (by simp)⟩
  have hno : ∀ {w' : World}, w'.main.pc ≠ .top → w'.main.pc ≠ .shut → w'.main.pc ≠ .receive →
      ¬w'.FirstTurn := by
    rintro w' h1 h2 h3 (⟨hpc, -⟩ | ⟨hpc | hpc, -⟩)
    · exact h1 hpc
    · exact h2 hpc
    · exact h3 hpc
  -- At the end of a turn.
  have htop : ∀ {w' : World}, 0 ≤ w'.main.lastTick → w'.main.pc = .top → ¬w'.FirstTurn := by
    rintro w' hpos he (⟨-, hlast⟩ | ⟨hpc | hpc, -⟩)
    · omega
    · exact absurd (he.symm.trans hpc) (by simp)
    · exact absurd (he.symm.trans hpc) (by simp)
  -- A step within a turn.
  have hin : ∀ {w' : World} {pc : MainPc}, w.main.pc = pc → pc ≠ .top → pc.out = false →
      w'.clock = w.clock → w'.msgq = w.msgq → w'.gen = w.gen →
      w'.main.lastTick = w.main.lastTick → w'.main.readyQueue = w.main.readyQueue →
      ¬w'.FirstTurn → w'.Early := by
    intro w' pc hpc hne hout hc hq hg hl hr hf
    refine ⟨hc.symm ▸ hclk, Or.inr (hl.symm ▸ hturn hpc hne hout), ?_, hg.symm ▸ hcur,
      hq.symm ▸ hsync, ?_, hg.symm ▸ hrest, ?_, fun h => absurd h hf⟩
    · rw [hl, hc]
      exact hpast
    · rw [hq, hg]
      exact hdone
    · rw [hq, hg, hr]
      exact hsent
  cases hm with
  | leave hpc hgo =>
    refine ⟨hclk, ?_, hpast, hcur, hsync, hdone, hrest, hsent,
      fun hf => absurd hf (hno (by rintro ⟨⟩) (by rintro ⟨⟩) (by rintro ⟨⟩))⟩
    rcases htick with ⟨h, -⟩ | h
    · exact Or.inl ⟨h, Or.inr rfl⟩
    · exact Or.inr h
  | spin hpc hgo hold => exact ⟨hclk, htick, hpast, hcur, hsync, hdone, hrest, hsent, hwait⟩
  | begin hpc hgo hnew =>
    refine ⟨hclk, Or.inr hclk, le_rfl, hcur, hsync, hdone, hrest, hsent, fun hf => hwait ?_⟩
    -- the turn for tick 0 is the first one
    rcases hf with ⟨hbad, -⟩ | ⟨-, hnow⟩
    · cases hbad
    · refine Or.inl ⟨hpc, ?_⟩
      rcases htick with ⟨hlast, -⟩ | hpos
      · exact hlast
      · change w.clock ≤ 0 at hnow
        omega
  | shut hpc =>
    refine ⟨hclk, Or.inr (hturn hpc (by simp) rfl), hpast, hcur, hsync, hdone, hrest, hsent,
      fun hf => hwait (Or.inr ⟨Or.inl hpc, ?_⟩)⟩
    rcases hf with ⟨hbad, -⟩ | ⟨-, hnow⟩
    · change (if w.main.receivingProcesses then MainPc.receive else
        Main.behindReceive w.main.now) = .top at hbad
      split_ifs at hbad
      exact absurd hbad (hbehind _).1
    · exact hnow
  | @arrive msg rest hpc hrcv h1 =>
    refine hrcvd hpc hrcv rfl (fun hs => ?_) fun hf => hkeep ?_ hrcv (by omega)
    · exact absurd h1 ((hsent hs).2 msg (mem_of_rcv hrcv).1)
    · exact hf
  | sync hpc hrcv h2 hnew =>
    exact hrcvd hpc hrcv rfl (fun hs => (hsent hs).1) fun hf =>
      absurd hf (hno (hbehind _).1 (hbehind _).2.1 (hbehind _).2.2)
  | last hpc hrcv h5 =>
    exact hrcvd hpc hrcv rfl (fun hs => (hsent hs).1) fun hf =>
      absurd hf (hno (hbehind _).1 (hbehind _).2.1 (hbehind _).2.2)
  | @drop msg rest hpc hrcv h1 h5 h2 =>
    refine hrcvd hpc hrcv rfl (fun hs => (hsent hs).1) fun hf => hkeep hf hrcv fun hm2 => ?_
    -- a message for a tick is not one for a tick before tick 0
    have hlate := h2 hm2
    have hpos := hsync msg (mem_of_rcv hrcv).1 hm2
    rcases hf with ⟨hbad, -⟩ | ⟨-, hnow⟩
    · exact absurd (hpc.symm.trans hbad) (by simp)
    · change w.main.now ≤ 0 at hnow
      omega
  | @route l x rest hpc hr =>
    refine ⟨hclk, Or.inr (hturn hpc (by simp) rfl), hpast, hcur, hsync, hdone, hrest, fun hs => ?_,
      fun hf => absurd hf (hno (by simp) (by simp) (by simp))⟩
    exact absurd (hr.symm.trans (hsent hs).1) (by simp)
  | @bottom pc hpc hterm =>
    refine hin hpc (by simp) rfl rfl rfl rfl rfl rfl ?_
    rcases hterm with ⟨-, -, rfl⟩ | ⟨-, rfl⟩
    · exact hno (by simp) (by simp) (by simp)
    · exact htop (hturn hpc (by simp) rfl) rfl
  | term₂ hpc =>
    exact hin hpc (by simp) rfl rfl rfl rfl rfl rfl (htop (hturn hpc (by simp) rfl) rfl)
  | done hpc =>
    refine ⟨hclk, ?_, hpast, hcur, hsync, hdone, hrest, hsent,
      fun hf => absurd hf (hno (by rintro ⟨⟩) (by rintro ⟨⟩) (by rintro ⟨⟩))⟩
    rcases htick with ⟨h, -⟩ | h
    · exact Or.inl ⟨h, Or.inr rfl⟩
    · exact Or.inr h
  | _ hpc =>
    exact hin hpc (by simp) rfl rfl rfl rfl rfl rfl
      (hno (by rintro ⟨⟩) (by rintro ⟨⟩) (by rintro ⟨⟩))

/-- What the generator sees when it looks at the clock. -/
theorem next_observe (h : next P w .observe = some w') : w.gen.queue ≠ [] ∧ w.gen.current = none ∧
    ∃ o, (∀ t, o = some t → t = w.clock) ∧ w' = { w with gen := { w.gen with current := o } } := by
  rw [next] at h
  dsimp only at h
  split_ifs at h with hc hold
  · exact ⟨hc.1, hc.2, none, (by simp), (Option.some.inj h).symm⟩
  · exact ⟨hc.1, hc.2, some w.clock, fun t ht => (Option.some.inj ht).symm,
      (Option.some.inj h).symm⟩

theorem Early.step (h : w.Early) (hin : ∀ pd ∈ w.gen.queue, pd.mtype = 1)
    (hnext : next P w e = some w') : w'.Early := by
  have hst := next_cases hnext
  cases hst with
  | main hm => exact h.mains hm
  | tick =>
    exact ⟨Int.le_add_one h.clock, h.tick, h.past.trans (Int.le_add_one le_rfl), h.current, h.syncs,
      h.done, h.rest, h.sent, h.wait⟩
  | sub hs =>
    cases hs <;> exact ⟨h.clock, h.tick, h.past, h.current, h.syncs, h.done, h.rest, h.sent, h.wait⟩
  | observe hq hs hd =>
    obtain ⟨hne, hnone, o, ho, heq⟩ := next_observe hnext
    rw [heq]
    refine ⟨h.clock, h.tick, h.past, fun t ht => (ho t ht).symm ▸ h.clock, h.syncs, h.done,
      fun hdone => absurd (h.rest hdone).1 hne, h.sent, fun hf => ?_⟩
    rcases h.wait hf with hw | hw | hw
    · exact Or.inl hw
    · exact absurd hnone hw
    · exact Or.inr (Or.inr hw)
  | @send t pd q ht hq hdue =>
    have h1 : pd.mtype = 1 := hin pd (hq ▸ List.mem_cons_self)
    refine ⟨h.clock, h.tick, h.past, h.current, fun d hd h2 => ?_, ?_, fun hdone => ?_,
      fun hs => ?_, fun _ => Or.inr (Or.inl ?_)⟩
    · rcases List.mem_append.mp hd with hd | hd
      · exact h.syncs d hd h2
      · rw [List.mem_singleton.mp hd] at h2
        omega
    · rintro ⟨d, hd, h5⟩
      rcases List.mem_append.mp hd with hd | hd
      · exact h.done ⟨d, hd, h5⟩
      · rw [List.mem_singleton.mp hd] at h5
        omega
    · exact nomatch hq.symm.trans (h.rest hdone).1
    · exact nomatch (List.append_eq_nil_iff.mp hs).2
    · exact fun hn => nomatch ht.symm.trans hn
  | @sync t ht hq =>
    refine ⟨h.clock, h.tick, h.past, fun _ h => (nomatch h), fun d hd h2 => ?_, ?_,
      fun hdone => ⟨(h.rest hdone).1, rfl⟩, fun hs => ⟨(h.sent hs).1, fun d hd => ?_⟩,
      fun _ => Or.inl ⟨_, List.mem_append_right _ List.mem_cons_self, rfl⟩⟩
    · rcases List.mem_append.mp hd with hd | hd
      · exact h.syncs d hd h2
      · rw [List.mem_singleton.mp hd]
        exact h.current t ht
    · rintro ⟨d, hd, h5⟩
      rcases List.mem_append.mp hd with hd | hd
      · exact h.done ⟨d, hd, h5⟩
      · rw [List.mem_singleton.mp hd] at h5
        exact absurd h5 (show (2 : ℤ) ≠ 5 by decide)
    · rcases List.mem_append.mp hd with hd | hd
      · exact (h.sent hs).2 d hd
      · rw [List.mem_singleton.mp hd]
        exact show (2 : ℤ) ≠ 1 by decide
  | last hq ht hd =>
    refine ⟨h.clock, h.tick, h.past, h.current, fun d hd h2 => ?_, fun _ => rfl, fun _ => ⟨hq, ht⟩,
      fun hs => ⟨(h.sent hs).1, fun d hd => ?_⟩, fun hf => ?_⟩
    · rcases List.mem_append.mp hd with hd | hd
      · exact h.syncs d hd h2
      · rw [List.mem_singleton.mp hd] at h2
        exact absurd h2 (show (5 : ℤ) ≠ 2 by decide)
    · rcases List.mem_append.mp hd with hd | hd
      · exact (h.sent hs).2 d hd
      · rw [List.mem_singleton.mp hd]
        exact show (5 : ℤ) ≠ 1 by decide
    · rcases h.wait hf with ⟨d, hd, h2⟩ | hw
      · exact Or.inl ⟨d, List.mem_append_left _ hd, h2⟩
      · exact Or.inr hw
  | _ => exact ⟨h.clock, h.tick, h.past, h.current, h.syncs, h.done, h.rest, h.sent, h.wait⟩

theorem start_early (l : List ProcessData) : (start l).Early where
  clock := le_rfl
  tick := Or.inl ⟨rfl, Or.inl rfl⟩
  past := show (-1 : ℤ) ≤ 0 by decide
  current := fun _ h => nomatch h
  syncs := List.forall_mem_nil _
  done := fun ⟨_, h, _⟩ => nomatch h
  rest := fun h => nomatch h
  sent := fun _ => ⟨rfl, List.forall_mem_nil _⟩
  wait := fun _ => Or.inr (Or.inr rfl)

/-! ### The termination messages to the sub-schedulers -/

/-- The sub-schedulers are being told, or have been told, that no process will come. -/
def Telling (w : World) : Prop := w.main.termSentToSubs = true ∨ w.main.pc.telling = true

/-- **Nothing is routed once the sub-schedulers have been told** that no process will come. -/
structure Told (w : World) : Prop where
  receiving : w.main.pc = .receive → w.main.receivingProcesses = true
  routed : w.main.receivingProcesses = false → w.main.pc.routing = false → w.main.readyQueue = []
  term : w.Telling ∨ w.main.pc = .term .one →
    w.main.receivingProcesses = false ∧ w.main.readyQueue = []
  subs : ∀ c, (w.sub c).Warned → w.Telling

theorem Told.mains (h : w.Told) (he : w.Early) (hm : Mains P w w') : w'.Told := by
  -- A message that is not the last one.
  have hsend : ∀ {b d : Cpu} {pd : ProcessData} {t : ℤ}, t ≠ 5 →
      ((w.sendProcessMsg b pd t).sub d).Warned → (w.sub d).Warned := by
    rintro b d pd t ht (hw | ⟨x, hx, h5⟩)
    · obtain ⟨q, u, v, hs⟩ := sendProcessMsg_reached w b pd t d
      rw [hs] at hw
      exact Or.inl hw
    · rcases mem_of_sendProcessMsg hx with hx | hx
      · exact Or.inr ⟨x, hx, h5⟩
      · exact absurd (hx.symm.trans h5) ht
  have hkeep : ∀ {w' : World} {pc : MainPc}, w.main.pc = pc → pc.telling = false →
      w'.main.receivingProcesses = w.main.receivingProcesses →
      w'.main.termSentToSubs = w.main.termSentToSubs →
      w'.main.readyQueue = w.main.readyQueue →
      (∀ c, (w'.sub c).Warned → (w.sub c).Warned) →
      (w'.main.pc = .receive → w.main.receivingProcesses = true) →
      (w'.main.pc = .term .one → w.main.receivingProcesses = false ∧ w.main.readyQueue = []) →
      w'.main.pc.telling = false →
      (pc.routing = true → w'.main.pc.routing = true ∨ w.main.readyQueue = []) → w'.Told := by
    rintro w' pc rfl htell hrecv hsent hready hsubs hin hterm htell' hroute
    have hback : w'.Telling → w.Telling := by
      rintro (ht | ht)
      · exact Or.inl (hsent ▸ ht)
      · exact absurd (htell'.symm.trans ht) (by simp)
    refine ⟨fun hpc => hrecv ▸ hin hpc, fun hr hno => ?_, fun ht => ?_, fun c hw => ?_⟩
    · rw [hready]
      cases hro : w.main.pc.routing with
      | false => exact h.routed (hrecv ▸ hr) hro
      | true =>
        rcases hroute hro with hro | hnil
        · exact absurd (hno.symm.trans hro) (by simp)
        · exact hnil
    · rw [hrecv, hready]
      rcases ht with ht | ht
      · exact h.term (Or.inl (hback ht))
      · exact hterm ht
    · rcases h.subs c (hsubs c hw) with ht | ht
      · exact Or.inl (hsent.symm ▸ ht)
      · exact absurd (htell.symm.trans ht) (by simp)
  have hbehind : ∀ now, Main.behindReceive now ≠ .receive ∧ Main.behindReceive now ≠ .term .one ∧
      (Main.behindReceive now).telling = false := by
    intro now
    rw [Main.behindReceive]
    split_ifs
    · exact ⟨by simp, (by simp), rfl⟩
    · exact ⟨by simp, (by simp), rfl⟩
  cases hm with
  | spin hpc hgo hold =>
    exact hkeep hpc rfl rfl rfl rfl (fun _ => id) (fun h => absurd (hpc.symm.trans h) (by simp))
      (fun h => absurd (hpc.symm.trans h) (by simp)) (congrArg MainPc.telling hpc) (by rintro ⟨⟩)
  | shut hpc =>
    refine hkeep hpc rfl rfl rfl rfl (fun _ => id) (fun h => ?_) (fun h => ?_) ?_
      (by rintro ⟨⟩)
    · change (if w.main.receivingProcesses then MainPc.receive else _) = .receive at h
      split_ifs at h with hr
      · exact hr
      · exact absurd h (hbehind _).1
    · change (if w.main.receivingProcesses then MainPc.receive else _) = .term .one at h
      split_ifs at h
      exact absurd h (hbehind _).2.1
    · change (if w.main.receivingProcesses then MainPc.receive else _).telling = false
      split_ifs
      · rfl
      · exact (hbehind _).2.2
  | arrive hpc hrcv h1 =>
    have hrecv := h.receiving hpc
    refine ⟨fun _ => hrecv, fun hr => absurd (hrecv.symm.trans hr) (by simp), fun ht => ?_, h.subs⟩
    exact absurd (hrecv.symm.trans (h.term ht).1) (by simp)
  | sync hpc hrcv h2 hnew =>
    exact hkeep hpc rfl rfl rfl rfl (fun _ => id) (fun h => absurd h (hbehind _).1)
      (fun h => absurd h (hbehind _).2.1) (hbehind _).2.2 (by rintro ⟨⟩)
  | @last msg rest hpc hrcv h5 =>
    have hno : ¬w.Telling := fun ht =>
            absurd ((h.receiving hpc).symm.trans (h.term (Or.inl ht)).1) (by simp)
    refine ⟨fun hp => absurd hp (hbehind _).1, fun _ hroute => ?_, fun ht => ?_,
      fun c hw => absurd (h.subs c hw) hno⟩
    · refine he.readyQueue hpc ?_ hrcv h5
      by_contra hnow
      change (Main.behindReceive w.main.now).routing = false at hroute
      rw [Main.behindReceive, if_pos (not_le.mp hnow)] at hroute
      cases hroute
    · rcases ht with (ht | ht) | ht
      · exact absurd (Or.inl ht) hno
      · exact absurd ((hbehind _).2.2.symm.trans ht) (by simp)
      · exact absurd ht (hbehind _).2.1
  | drop hpc hrcv h1 h5 h2 =>
    exact hkeep hpc rfl rfl rfl rfl (fun _ => id) (fun _ => h.receiving hpc)
      (fun h => absurd (hpc.symm.trans h) (by simp)) (congrArg MainPc.telling hpc) (by rintro ⟨⟩)
  | load hpc hr =>
    exact hkeep hpc rfl rfl rfl rfl (fun _ => id) (by rintro ⟨⟩) (by rintro ⟨⟩) rfl
      (fun _ => Or.inl rfl)
  | nothing hpc hr | routed hpc hr =>
    exact hkeep hpc rfl rfl rfl rfl (fun _ => id) (by rintro ⟨⟩) (by rintro ⟨⟩) rfl
      (fun _ => Or.inr hr)
  | @route l x rest hpc hr =>
    have hno : ¬w.Telling := fun ht =>
            absurd (hr.symm.trans (h.term (Or.inl ht)).2) (by simp)
    refine ⟨by simp, fun _ hroute => absurd hroute (by rintro ⟨⟩), fun ht => ?_,
      fun c hw => absurd (h.subs c (hsend (by decide) hw)) hno⟩
    rcases ht with (ht | ht) | ht
    · exact absurd (Or.inl ht) hno
    · cases ht
    · cases ht
  | resend hpc =>
    exact hkeep hpc rfl rfl rfl rfl (fun _ => hsend (by decide)) (by rintro ⟨⟩)
      (by rintro ⟨⟩) rfl (by rintro ⟨⟩)
  | @steal b read hpc =>
    refine hkeep hpc rfl rfl rfl rfl (fun d hw => ?_) (by rintro ⟨⟩) (by rintro ⟨⟩)
      rfl (by rintro ⟨⟩)
    change ((w.setSub b { w.sub b with sigurg := true }).sub d).Warned at hw
    by_cases hd : d = b
    · subst hd
      rw [setSub_sub_self] at hw
      exact hw
    · rw [setSub_sub_of_ne _ _ hd] at hw
      exact hw
  | @bottom pc hpc hterm =>
    rcases hterm with ⟨hr, -, rfl⟩ | ⟨-, rfl⟩
    · exact hkeep hpc rfl rfl rfl rfl (fun _ => id) (by simp)
        (fun _ => ⟨hr, h.routed hr (congrArg MainPc.routing hpc)⟩) rfl (by rintro ⟨⟩)
    · exact hkeep hpc rfl rfl rfl rfl (fun _ => id) (by simp) (by simp) rfl
        (by rintro ⟨⟩)
  | term₁ hpc =>
    obtain ⟨hr, hready⟩ := h.term (Or.inr hpc)
    exact ⟨by rintro ⟨⟩, fun _ _ => hready, fun _ => ⟨hr, hready⟩, fun _ _ => Or.inr rfl⟩
  | term₂ hpc =>
    obtain ⟨hr, hready⟩ := h.term (Or.inl (Or.inr (congrArg MainPc.telling hpc)))
    exact ⟨by simp, fun _ _ => hready, fun _ => ⟨hr, hready⟩, fun _ _ => Or.inl rfl⟩
  | _ hpc =>
    exact hkeep hpc rfl rfl rfl rfl (fun _ => id) (by rintro ⟨⟩) (by rintro ⟨⟩) rfl
      (by rintro ⟨⟩)

/-- Nobody else warns a sub-scheduler. -/
theorem Happens.warned (h : Happens w c e s) (hsub : s.msgq ⊆ (w.sub c).msgq) (hs : s.Warned) :
    (w.sub c).Warned := by
  cases h with
  | reached h =>
    obtain ⟨q, u, v, rfl⟩ := h
    rcases hs with hs | ⟨pd, hpd, h5⟩
    · exact Or.inl hs
    · exact Or.inr ⟨pd, hsub hpd, h5⟩
  | own h => exact Sub.warned_moves h hs
  | steal hsig hpc => exact Sub.warned_stealHandler hs
  | stall hsig hpc => exact Sub.warned_stallSig hs
  | child h =>
    obtain ⟨fin, sem, rt, ch, rfl⟩ := Sub.childStep_eq_some h
    exact hs
  | _ => exact hs

theorem Told.step (h : w.Told) (he : w.Early) (hst : Steps P w e w') : w'.Told := by
  by_cases hmain : e = .main
  · subst hmain
    cases hst with
    | main hm => exact h.mains he hm
  · have hm := hst.main_eq hmain
    have htell : w'.Telling ↔ w.Telling := by rw [Telling, Telling, hm]
    refine ⟨hm ▸ h.receiving, hm ▸ h.routed, ?_, fun c hw => ?_⟩
    · rw [htell, hm]
      exact h.term
    · exact htell.mpr (h.subs c ((hst.happens c).warned (hst.msgq_subset hmain c) hw))

/-! ### Out of the loop -/

/-- **Nothing is waiting once a sub-scheduler has left its loop**, and it is running nothing. -/
structure Over (w : World) : Prop where
  idle : ∀ c, (w.sub c).pc.left = true → (w.sub c).currProcess = none
  told : ∀ c, (w.sub c).pc.left = true → w.Telling
  rest : ∀ c, (w.sub c).pc.left = true → w.waiting = []

theorem Sub.of_goesOn {s : Sub} (h : s.goesOn = false) :
    s.currProcess = none ∧ s.receivingProcesses = false := by
  simp only [Sub.goesOn, Bool.or_eq_false_iff, Option.isSome_eq_false_iff,
    Option.isNone_iff_eq_none] at h
  exact ⟨h.1.2, h.1.1.2⟩

/-- A sub-scheduler that has left its loop has left it before, or leaves it now. -/
theorem Happens.left (h : Happens w c e s) (hl : s.pc.left = true) :
    (w.sub c).pc.left = true ∨
      (e = .sub c ∧ (w.sub c).pc = .cond ∧ (w.sub c).goesOn = false) := by
  by_cases he : e = .sub c
  · cases h with
    | reached h =>
      obtain ⟨q, u, v, rfl⟩ := h
      exact Or.inl hl
    | own h =>
      rcases h.left.mp hl with hl | ⟨hpc, hgo, -⟩
      · exact Or.inl hl
      · exact Or.inr ⟨he, hpc, hgo⟩
    | pass hpc h0 hgate => exact nomatch hl
    | @write k n t hpc =>
      refine Or.inl ?_
      rw [hpc]
      cases k <;> first | rfl | exact nomatch hl
    | ack hpc => exact Or.inl (hpc ▸ rfl)
    | steal | stall | child => exact nomatch he
  · exact Or.inl ((h.place he).1 ▸ hl)

/-- It runs nothing. -/
theorem Happens.idle (h : Happens w c e s) (hl : s.pc.left = true)
    (hidle : (w.sub c).pc.left = true → (w.sub c).currProcess = none) : s.currProcess = none := by
  have hcurr : (w.sub c).currProcess = none := by
    rcases h.left hl with hleft | ⟨-, -, hgo⟩
    · exact hidle hleft
    · exact (Sub.of_goesOn hgo).1
  cases h with
  | reached h =>
    obtain ⟨q, u, v, rfl⟩ := h
    exact hcurr
  | own h =>
    cases h with
    | finish hpc hfin hs | dequeue hpc hq | run hpc hs => exact nomatch hl
    | resume hpc => exact nomatch hl
    | permit hpc => exact nomatch hl
    | _ => exact hcurr
  | steal hsig hpc =>
    rcases (w.sub c).stealHandler_cases w.clock with ⟨-, v, r, hs⟩ | ⟨x, q, -, v, r, hs⟩
    · rw [hs]
      exact hcurr
    · rw [hs]
      exact hcurr
  | stall hsig hpc =>
    obtain ⟨y, v, r, l, ch, hs, hid⟩ := (w.sub c).stallSig_eq w.clock
    rw [hs]
    rw [hcurr] at hid
    exact Option.map_eq_none_iff.mp hid
  | child h =>
    obtain ⟨fin, sem, rt, ch, rfl⟩ := Sub.childStep_eq_some h
    exact hcurr
  | _ => exact hcurr

/-- The sub-schedulers are told once and for all. -/
theorem Telling.step (h : w.Telling) (hst : Steps P w e w') : w'.Telling := by
  by_cases hmain : e = .main
  · subst hmain
    cases hst with
    | main hm =>
      cases hm with
      | term₂ hpc => exact Or.inl rfl
      | spin hpc hgo hold => exact h
      | arrive hpc hrcv h1 => exact h
      | drop hpc hrcv h1 h5 h2 => exact h
      | _ hpc => exact h.imp id fun h => nomatch h.symm.trans (congrArg MainPc.telling hpc)
  · rw [Telling, hst.main_eq hmain]
    exact h

theorem Steps.routed_eq (hst : Steps P w e w') (hr : w.main.readyQueue = []) :
    w'.routed = w.routed := by
  cases hst with
  | main hm =>
    cases hm with
    | route hpc hready => exact nomatch hr.symm.trans hready
    | _ => rfl
  | sub hs => cases hs <;> rfl
  | _ => rfl

/-- **A sub-scheduler leaves its loop when no process is waiting**, with it or with the other one
or on its way. -/
def Done (w : World) : Event → Prop
  | .sub c => (w.sub c).pc = .cond → (w.sub c).goesOn = false → w.waiting = []
  | _ => True

/-- Where nothing is waiting and nothing can be routed, nothing will be waiting. -/
theorem waiting_step (hw : w.waiting = []) (htold : w.Told) (htell : w.Telling)
    (hcons : w.Conserved) (hcons' : w'.Conserved) (hfree : ∀ c, (w.sub c).Free)
    (hst : Steps P w e w') : w'.waiting = [] := by
  have hrouted := hst.routed_eq (htold.term (Or.inl htell)).2
  have hlen := hcons.length
  have hlen' := hcons'.length
  have h₁ := (hst.happens .one).served_le (hfree .one)
  have h₂ := (hst.happens .two).served_le (hfree .two)
  rw [hw, List.length_nil] at hlen
  rw [hrouted] at hlen'
  refine List.eq_nil_of_length_eq_zero ?_
  omega

theorem Over.step (h : w.Over) (htold : w.Told) (hcons : w.Conserved) (hcons' : w'.Conserved)
    (hfree : ∀ c, (w.sub c).Free) (hst : Steps P w e w') (hdone : w.Done e) : w'.Over := by
  have hbefore : ∀ c, (w'.sub c).pc.left = true → w.Telling ∧ w.waiting = [] := by
    intro c hl
    rcases (hst.happens c).left hl with hl | ⟨rfl, hpc, hgo⟩
    · exact ⟨h.told c hl, h.rest c hl⟩
    · exact ⟨htold.subs c (Or.inl (Sub.of_goesOn hgo).2), hdone hpc hgo⟩
  refine ⟨fun c hl => (hst.happens c).idle hl (h.idle c), fun c hl => (hbefore c hl).1.step hst,
    fun c hl => ?_⟩
  obtain ⟨htell, hw⟩ := hbefore c hl
  exact waiting_step hw htold htell hcons hcons' hfree hst

/-! ### Runs -/

/-- **The reply comes before a termination message, and nobody leaves his loop too early.** -/
def Orderly (w : World) (e : Event) : Prop := w.Answered e ∧ w.Done e

/-- The invariant over a run in which this is so. -/
structure Sorted (l : List ProcessData) (w : World) : Prop where
  balanced : w.Balanced False
  given : w.Given
  flow : w.Flow l
  early : w.Early
  told : w.Told
  free : ∀ c, (w.sub c).Free
  conserved : w.Conserved
  ended : w.Over

theorem Balanced.step (h : w.Balanced False) (hfresh : ∀ c, (w.sub c).Fresh)
    (hst : Steps P w e w') (hans : w.Answered e) : w'.Balanced False := by
  by_cases hmain : e = .main
  · subst hmain
    cases hst with
    | main hm => exact h.mains hm hans (fun _ h => h.elim) fun _ h => h.elim
  · by_cases hsteal : ∃ c, e = .steal c
    · obtain ⟨c, rfl⟩ := hsteal
      cases hst with
      | steal hsig hpc => exact h.steal (hfresh c) hsig id
    · obtain ⟨hm, hr, hs⟩ := hst.others hmain fun c he => hsteal ⟨c, he⟩
      exact h.of_eq hm hr (fun c => (hs c).1) fun h => h.elim

theorem Sorted.step {l : List ProcessData} (h : w.Sorted l) (hfresh : ∀ c, (w.sub c).Fresh)
    (hnext : next P w e = some w') (ho : w.Orderly e) : w'.Sorted l := by
  have hst := next_cases hnext
  have hcons : w'.Conserved := by
    refine h.conserved.step hst h.free ?_
    rintro rfl b read resp rest hpc hrcv h12
    have h6 : resp.mtype ≠ 6 := ho.1 (by rw [hpc]; rfl) resp (by rw [hrcv]; rfl)
    exact h.balanced.mtype_reply hpc hrcv h6 h12
  exact {
    balanced := h.balanced.step hfresh hst ho.1
    given := h.given.step h.balanced hst ho.1
    flow := h.flow.step hst
    early := h.early.step h.flow.input hnext
    told := h.told.step h.early hst
    free := fun c => (hst.happens c).free (h.free c)
    conserved := hcons
    ended := h.ended.step h.told h.conserved hcons h.free hst ho.2 }

theorem start_sorted {l : List ProcessData} (hl : CpuScheduler.World.Workload l) :
    (start l).Sorted l where
  balanced := ⟨fun _ => rfl, rfl⟩
  given := ⟨fun _ _ h => (nomatch h), fun _ _ _ h => (nomatch h)⟩
  flow := start_flow hl
  early := start_early l
  told := by
    refine ⟨fun h => (nomatch h), fun h => (nomatch h), fun h => ?_, fun c h => ?_⟩
    · rcases h with (h | h) | h
      · exact nomatch h
      · exact nomatch h
      · exact nomatch h
    · rcases h with h | ⟨pd, hpd, -⟩
      · exact nomatch h
      · exact nomatch hpd
  free := fun _ h => nomatch h
  conserved := List.Perm.refl _
  ended := ⟨fun _ h => (nomatch h), fun _ h => (nomatch h), fun _ h => (nomatch h)⟩

theorem reachable_sorted (h : (systemIf P Orderly).Reachable w) :
    ∃ l, CpuScheduler.World.Workload l ∧ w.Sorted l := by
  refine h.invariant_of (P := fun w => ∃ l, CpuScheduler.World.Workload l ∧ w.Sorted l)
    (fun w hw => reachable_fresh (reachable_of_if hw)) ?_ ?_
  · rintro _ ⟨l, hl, rfl⟩
    exact ⟨l, hl, start_sorted hl⟩
  · rintro w w' hfresh ⟨l, hl, hw⟩ ⟨e, hnext, ho⟩
    exact ⟨l, hl, hw.step hfresh hnext ho⟩

/-- **What becomes of the processes**: each one that has been routed is in exactly one place, and
none has been routed twice. What `check_threshold` sends on is the reply to its command. No step
puts a process into the input queue of a sub-scheduler that has left its loop. When the main
scheduler has left its loop, all processes are finished. -/
structure Settled (P : Params) (w : World) : Prop where
  conserved : w.Conserved
  nodup : w.routed.Nodup
  reply : ∀ b read resp, w.main.pc = .resend b read resp →
    resp.mtype = 11 ∧ (w.sub b).stolen.getLast? = some resp.id
  sent : ∀ c, (w.sub c).pc.left = true → ∀ e w', next P w e = some w' →
    ∀ pd ∈ (w'.sub c).msgq, pd.mtype ≠ 1
  finished : w.main.pc.out = true → w.routed.Perm w.finished

/-- Where nothing is waiting there are no processes in the input queues. -/
theorem mtype_of_waiting (hw : w.waiting = []) (c : Cpu) : ∀ pd ∈ (w.sub c).msgq,
    pd.mtype ≠ 1 := by
  have hsub : (w.sub c).waiting = [] := by
    rw [waiting, List.append_eq_nil_iff, List.append_eq_nil_iff] at hw
    cases c
    · exact hw.1.1
    · exact hw.1.2
  have hflight : (w.sub c).inFlight = [] :=
    List.map_eq_nil_iff.mp (List.append_eq_nil_iff.mp hsub).1
  have hnew := (List.append_eq_nil_iff.mp hflight).2
  intro pd hpd
  simpa using List.filter_eq_nil_iff.mp hnew pd hpd

theorem Over.sent (h : w.Over) (htold : w.Told) (hl : (w.sub c).pc.left = true)
    (hst : Steps P w e w') : ∀ pd ∈ (w'.sub c).msgq, pd.mtype ≠ 1 := by
  have hw := h.rest c hl
  have hold := mtype_of_waiting hw c
  have hterm : ∀ {b : Cpu} {x : ProcessData}, ∀ pd ∈ ((w.sendProcessMsg b x 5).sub c).msgq,
      pd.mtype ≠ 1 := by
    intro b x pd hpd
    rcases mem_of_sendProcessMsg hpd with hpd | h5
    · exact hold pd hpd
    · omega
  by_cases hmain : e = .main
  · subst hmain
    cases hst with
    | main hm =>
      cases hm with
      | route hpc hr => exact absurd (hr.symm.trans (htold.term (Or.inl (h.told c hl))).2) (by simp)
      | resend hpc =>
        rw [waiting, hpc] at hw
        exact absurd ((List.append_eq_nil_iff.mp (List.append_eq_nil_iff.mp hw).2).2) (by rintro ⟨⟩)
      | @steal b read hpc =>
        intro pd hpd
        change pd ∈ ((w.setSub b { w.sub b with sigurg := true }).sub c).msgq at hpd
        by_cases hc : c = b
        · subst hc
          rw [setSub_sub_self] at hpd
          exact hold pd hpd
        · rw [setSub_sub_of_ne _ _ hc] at hpd
          exact hold pd hpd
      | term₁ hpc => exact hterm
      | term₂ hpc => exact hterm
      | _ => exact hold
  · exact fun pd hpd => hold pd (hst.msgq_subset hmain c hpd)

theorem Over.finished (h : w.Over) (hcons : w.Conserved) (hl : ∀ c, (w.sub c).pc.left = true) :
    w.routed.Perm w.finished := by
  have hw := h.rest .one (hl .one)
  have hnone : w.unfinished = [] := by
    rw [waiting, List.append_eq_nil_iff, List.append_eq_nil_iff] at hw
    rw [unfinished, Sub.held, Sub.held, hw.1.1, hw.1.2, hw.2, h.idle .one (hl .one),
      h.idle .two (hl .two)]
    rfl
  rw [Conserved, hnone, List.nil_append] at hcons
  exact hcons

/-- **All goes well in a run that is orderly.** -/
theorem settled_of_orderly (h : (systemIf P Orderly).Reachable w) : w.Settled P := by
  obtain ⟨l, hl, hw⟩ := reachable_sorted h
  have hgone := (reachable_acked (reachable_of_if h)).gone
  exact {
    conserved := hw.conserved
    nodup := hw.flow.nodup hl
    reply := hw.given.sent
    sent := fun c hc e w' hnext => hw.ended.sent hw.told hc (next_cases hnext)
    finished := fun hout =>
      hw.ended.finished hw.conserved fun c => SubPc.left_of_gone (hgone hout c) }

/-! ### Explicit runs -/

instance (w : World) (e : Event) : Decidable (w.Done e) :=
  match e with
  | .sub c => inferInstanceAs (Decidable ((w.sub c).pc = .cond → (w.sub c).goesOn = false →
      w.waiting = []))
  | .tick | .main | .steal _ | .stall _ | .child _ | .observe | .send | .sync | .last =>
    inferInstanceAs (Decidable True)

instance (w : World) (e : Event) : Decidable (w.Orderly e) :=
  inferInstanceAs (Decidable (_ ∧ _))

/-- The next state, if the step is orderly. -/
def nextOrderly (P : Params) (w : World) (e : Event) : Option World :=
  if w.Orderly e then next P w e else none

theorem nextOrderly_step (w : World) (e : Event) (w' : World)
    (h : w.nextOrderly P e = some w') : (systemIf P Orderly).step w w' := by
  rw [nextOrderly] at h
  split_ifs at h with ho
  exact ⟨e, h, ho⟩

/-- The last process is stolen at tick 2, and both CPUs are stalled up to tick 5. The second CPU
finishes its own process, the first one its own, and the second one the process it has been sent.
Then both leave their loops. -/
def wholeRun : List Event := List.flatten
  [[.tick, .observe, .send, .send, .send, .sync, .last], List.replicate 15 .main,
    List.replicate 25 (.sub .one), List.replicate 23 (.sub .two),
    [.child .one, .child .two, .child .two, .tick], List.replicate 7 .main, [.steal .one],
    List.replicate 4 .main, [.stall .one, .stall .two, .main], List.replicate 4 (.sub .one),
    List.replicate 4 (.sub .two), [.tick, .tick, .tick], List.replicate 12 .main,
    List.replicate 22 (.sub .one), [.child .one, .tick], List.replicate 7 .main,
    List.replicate 13 (.sub .one), List.replicate 13 (.sub .two),
    [.child .one, .child .one, .tick], List.replicate 6 .main, List.replicate 13 (.sub .one),
    List.replicate 20 (.sub .two), [.child .two, .child .two, .tick], List.replicate 7 .main,
    List.replicate 13 (.sub .one), List.replicate 13 (.sub .two), [.tick], List.replicate 6 .main,
    List.replicate 18 (.sub .one), [.main, .sub .one], List.replicate 14 (.sub .two),
    List.replicate 3 .main]

/-- A whole run in which a process is moved to the other CPU. -/
theorem settled_of_orderly_uneven : ∃ w,
    playAll (nextOrderly { N := 2, M := 1 }) (start uneven) wholeRun = some w ∧
    w.main.pc.out = true ∧ w.routed = [7, 8, 9] ∧ (w.sub .one).finished = [7] ∧
    (w.sub .two).finished = [8, 9] ∧ w.Settled { N := 2, M := 1 } := by
  have hrun : (playAll (nextOrderly { N := 2, M := 1 }) (start uneven) wholeRun).map
      (fun w => (w.main.pc.out, w.routed, (w.sub .one).finished, (w.sub .two).finished)) =
      some (true, [7, 8, 9], [7], [8, 9]) := by
    decide +kernel
  obtain ⟨w, hw, h⟩ := Option.map_eq_some_iff.mp hrun
  simp only [Prod.mk.injEq] at h
  have hstart : (systemIf { N := 2, M := 1 } Orderly).Reachable (start uneven) :=
    .init ⟨_, workload_uneven, rfl⟩
  exact ⟨w, hw, h.1, h.2.1, h.2.2.1, h.2.2.2,
    settled_of_orderly (hstart.playAll nextOrderly_step hw)⟩

/-- The type of the message that is about to be sent on. -/
def sending : MainPc → Option ℤ
  | .resend _ _ resp => some resp.mtype
  | _ => none

theorem sending_eq_some {pc : MainPc} {t : ℤ} (h : sending pc = some t) :
    ∃ b read resp, pc = .resend b read resp ∧ resp.mtype = t := by
  cases pc <;> simp only [sending, reduceCtorEq, Option.some.injEq] at h
  exact ⟨_, _, _, rfl, h⟩

/-- **A termination message is about to be sent on**, in place of the process that the busier CPU
has been told to give back. -/
theorem not_settled : ¬∀ w, (system { N := 3, M := 0 }).Reachable w →
    w.Settled { N := 3, M := 0 } := by
  intro hall
  have hrun : (playAll (next { N := 3, M := 0 }) (start [soleProcess 0])
      Weighed.ackRun.dropLast).map (fun w => sending w.main.pc) = some (some 6) := by
    decide +kernel
  obtain ⟨w, hw, h⟩ := Option.map_eq_some_iff.mp hrun
  obtain ⟨b, read, resp, hpc, h6⟩ := sending_eq_some h
  have hstart : (system { N := 3, M := 0 }).Reachable (start [soleProcess 0]) :=
    .init ⟨_, CpuScheduler.World.workload_sole 0, rfl⟩
  have h11 := ((hall w (hstart.playAll next_step hw)).reply b read resp hpc).1
  omega

end World

end Dual

end CpuScheduler
