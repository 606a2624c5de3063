import CpuScheduler.Dual.Moves

/-!
# What a process carries with it

A process goes through two message queues, three ready queues and the response queue, as a
message or as a PCB, and is converted each time it moves. Its id, its arrival, its runtime and
its priority (`CpuScheduler.PCB.job`) are the same everywhere: what is true of the jobs of the
input is true of every process that is anywhere on its way
(`CpuScheduler.Dual.World.reachable_carried`).

One thing may be sent on that is not a process of the input. The main scheduler takes whatever
comes first out of the response queue for the reply to its command, and a termination message
that is there becomes a process with nothing in it. So the job of an empty message has to meet
the condition, too.
-/

namespace CpuScheduler

/-- What the input says of a process. -/
abbrev Job := ℤ × ℤ × ℤ × ℤ

def ProcessData.job (pd : ProcessData) : Job := (pd.id, pd.arrival, pd.runtime, pd.priority)

def PCB.job (x : PCB) : Job := (x.id, x.arrival, x.runtime, x.priority)

namespace Dual

variable {Q : Job → Prop} {clk rem : ℤ}

theorem mem_news {pd : ProcessData} {q : List ProcessData} (h : pd ∈ news q) :
    pd ∈ q ∧ pd.mtype = 1 := by
  induction q with
  | nil => cases h
  | cons a q ih =>
    rw [news] at h
    split_ifs at h with h5 h1
    · cases h
    · rcases List.mem_cons.mp h with rfl | h
      · exact ⟨List.mem_cons_self, h1⟩
      · exact ⟨List.mem_cons_of_mem a (ih h).1, (ih h).2⟩
    · exact ⟨List.mem_cons_of_mem a (ih h).1, (ih h).2⟩

theorem mem_of_mem_left {pd : ProcessData} {q : List ProcessData} (h : pd ∈ left q) : pd ∈ q := by
  induction q with
  | nil => exact nomatch h
  | cons a q ih =>
    rw [left] at h
    split_ifs at h
    · exact List.mem_cons_of_mem a h
    · exact List.mem_cons_of_mem a (ih h)

namespace Sub

variable {s s' : Sub}

/-- The processes on their way in a sub-scheduler. -/
structure Carries (Q : Job → Prop) (s : Sub) : Prop where
  msgq : ∀ pd ∈ s.msgq, pd.mtype = 1 → Q pd.job
  fetched : ∀ b pd, s.pc = .put b pd → Q pd.job
  ready : ∀ x ∈ s.readyQueue, Q x.job

theorem Carries.moves (h : s.Carries Q) (hs : s.Moves clk rem s') : s'.Carries Q := by
  obtain ⟨hm, hf, hr⟩ := h
  -- most moves do not end with a message in hand
  have hkeep : ∀ {t : Sub}, t.msgq = s.msgq → t.readyQueue = s.readyQueue →
      (∀ b pd, t.pc ≠ .put b pd) → t.Carries Q := by
    intro t hq hready hpc
    exact ⟨hq ▸ hm, fun b pd h => absurd h (hpc b pd), hready ▸ hr⟩
  cases hs with
  | @drained b hpc hq => cases b <;> exact hkeep rfl rfl (by simp [behindDrain])
  | fetch hpc hq h1 =>
    rw [hq] at hm
    refine ⟨fun pd hpd => hm pd (List.mem_cons_of_mem _ hpd), fun b pd h => ?_, hr⟩
    obtain ⟨-, rfl⟩ := SubPc.put.inj h
    exact hm _ List.mem_cons_self h1
  | @last b pd q hpc hq h5 =>
    rw [hq] at hm
    cases b <;>
      exact ⟨fun pd hpd => hm pd (List.mem_cons_of_mem _ hpd), by simp [behindDrain], hr⟩
  | drop hpc hq h1 h5 =>
    rw [hq] at hm
    exact ⟨fun pd hpd => hm pd (List.mem_cons_of_mem _ hpd),
      fun b pd h => absurd (hpc.symm.trans h) (by simp), hr⟩
  | put hpc =>
    refine ⟨hm, by simp, fun x hx => ?_⟩
    rcases Queue.mem_enqueue.mp hx with hx | rfl
    · exact hr x hx
    · exact hf _ _ hpc
  | finish hpc hfin hs =>
    obtain ⟨x, l, p, -, -, rfl⟩ := finishLogic_eq_ok hs
    exact hkeep rfl rfl (by simp)
  | resume hpc =>
    obtain ⟨st, y, l, ch, hs, -⟩ := s.endStall_eq clk
    rw [hs]
    exact hkeep rfl rfl (by simp)
  | dequeue hpc hq =>
    rw [hq] at hr
    exact ⟨hm, by simp, fun x hx => hr x (List.mem_cons_of_mem _ hx)⟩
  | run hpc hs =>
    obtain ⟨x, y, l, ch, -, -, rfl⟩ := runProcess_eq_ok hs
    exact hkeep rfl rfl (by simp)
  | permit hpc =>
    obtain ⟨n, hs⟩ := s.permit_eq
    rw [hs]
    exact hkeep rfl rfl (by simp)
  | _ => exact hkeep rfl rfl (by simp)

/-- The processes that a handler finds. -/
theorem Carries.readyToSteal (h : s.Carries Q) : ∀ x ∈ s.readyToSteal, Q x.job := by
  intro x hx
  rcases List.mem_append.mp hx with hx | hx
  · exact h.ready x hx
  · obtain ⟨pd, hpd, rfl⟩ := List.mem_map.mp hx
    obtain ⟨hmem, h1⟩ := mem_news hpd
    exact h.msgq pd hmem h1

theorem Carries.left (h : s.Carries Q) : ∀ pd ∈ left s.msgq, pd.mtype = 1 → Q pd.job :=
  fun pd hpd => h.msgq pd (mem_of_mem_left hpd)

/-- A process that is given back carries its job. -/
theorem Carries.stealHandler (h : s.Carries Q) (clk : ℤ) : (s.stealHandler clk).1.Carries Q ∧
    ((s.stealHandler clk).2.mtype ≠ 12 → Q (s.stealHandler clk).2.job) := by
  rcases s.stealHandler_cases clk with ⟨-, v, r, hs⟩ | ⟨x, q, hq, v, r, hs⟩
  · rw [hs]
    exact ⟨⟨h.left, h.fetched, List.forall_mem_nil _⟩, fun h => absurd rfl h⟩
  · have hready := h.readyToSteal
    rw [hq] at hready
    rw [hs]
    exact ⟨⟨h.left, h.fetched, fun y hy => hready y (List.mem_append_left _ hy)⟩,
      fun _ => hready x (List.mem_append_right _ List.mem_cons_self)⟩

end Sub

namespace World

variable {P : Params} {w w' : World} {c : Cpu} {e : Event} {s : Sub}

/-- **Everything that is on its way** carries a job that meets the condition. -/
structure Carried (Q : Job → Prop) (w : World) : Prop where
  input : ∀ pd ∈ w.gen.queue, Q pd.job
  posted : ∀ pd ∈ w.msgq, pd.mtype = 1 → Q pd.job
  ready : ∀ x ∈ w.main.readyQueue, Q x.job
  subs : ∀ c, (w.sub c).Carries Q
  replies : ∀ pd ∈ w.resp, pd.mtype ≠ 12 → Q pd.job
  moved : ∀ b read pd, w.main.pc = .resend b read pd → Q pd.job

theorem Carried.setMain (h : w.Carried Q) {m : Main} (hr : ∀ x ∈ m.readyQueue, Q x.job)
    (hm : ∀ b read pd, m.pc = .resend b read pd → Q pd.job) :
    Carried Q { w with main := m } :=
  ⟨h.input, h.posted, hr, h.subs, h.replies, hm⟩

theorem Carried.goto (h : w.Carried Q) {pc : MainPc}
    (hm : ∀ b read pd, pc = .resend b read pd → Q pd.job) : (w.goto pc).Carried Q :=
  h.setMain h.ready hm

theorem Carried.setSub (h : w.Carried Q) (hs : s.Carries Q) : (w.setSub c s).Carried Q := by
  refine ⟨h.input, h.posted, h.ready, fun d => ?_, h.replies, h.moved⟩
  by_cases hd : d = c
  · subst hd
    rw [setSub_sub_self]
    exact hs
  · rw [setSub_sub_of_ne _ _ hd]
    exact h.subs d

/-- A message for a new process, or another message. -/
theorem Carried.sendProcessMsg (h : w.Carried Q) {pd : ProcessData} {t : ℤ}
    (hpd : t = 1 → Q pd.job) : (w.sendProcessMsg c pd t).Carried Q := by
  have hc := h.subs c
  refine h.setSub ⟨fun a ha h1 => ?_, hc.fetched, hc.ready⟩
  rcases List.mem_append.mp ha with ha | ha
  · exact hc.msgq a ha h1
  · obtain rfl := List.mem_singleton.mp ha
    exact hpd h1

theorem mem_of_rcv {t : ℤ} {q rest : List ProcessData} {msg : ProcessData}
    (h : MsgQueue.rcv ProcessData.mtype t q = some (msg, rest)) :
    msg ∈ q ∧ ∀ pd ∈ rest, pd ∈ q := by
  have hperm := MsgQueue.perm_of_rcv h
  exact ⟨hperm.mem_iff.mpr List.mem_cons_self,
    fun pd hpd => hperm.mem_iff.mpr (List.mem_cons_of_mem _ hpd)⟩

theorem Mains.carried (hw : w.Carried Q) (h : Mains P w w') : w'.Carried Q := by
  have hb : ∀ pc, pc = Main.behindReceive w.main.now → ∀ b read pd, pc ≠ .resend b read pd := by
    rintro _ rfl b read pd
    rw [Main.behindReceive]
    split_ifs <;> simp
  cases h with
  | leave hpc hgo => exact hw.goto (by simp)
  | spin hpc hgo hold =>
    exact ⟨hw.input, hw.posted, hw.ready, hw.subs,
      fun pd hpd => hw.replies pd (List.mem_of_mem_filter hpd), hw.moved⟩
  | begin hpc hgo hnew =>
    exact ⟨hw.input, hw.posted, hw.ready, hw.subs,
      fun pd hpd => hw.replies pd (List.mem_of_mem_filter hpd), by simp⟩
  | shut hpc =>
    refine ⟨hw.input, hw.posted, hw.ready, hw.subs, hw.replies, fun b read pd h => ?_⟩
    change (if w.main.receivingProcesses then _ else _) = _ at h
    split_ifs at h
    exact absurd h (hb _ rfl b read pd)
  | arrive hpc hrcv h1 =>
    obtain ⟨hmem, hrest⟩ := mem_of_rcv hrcv
    refine ⟨hw.input, fun pd hpd => hw.posted pd (hrest pd hpd), fun x hx => ?_, hw.subs,
      hw.replies, hw.moved⟩
    rcases Queue.mem_enqueue.mp hx with hx | rfl
    · exact hw.ready x hx
    · exact hw.posted _ hmem h1
  | sync hpc hrcv h2 hnew =>
    exact ⟨hw.input, fun pd hpd => hw.posted pd ((mem_of_rcv hrcv).2 pd hpd), hw.ready, hw.subs,
      hw.replies, fun b read pd h => absurd h (hb _ rfl b read pd)⟩
  | last hpc hrcv h5 =>
    exact ⟨hw.input, fun pd hpd => hw.posted pd ((mem_of_rcv hrcv).2 pd hpd), hw.ready, hw.subs,
      hw.replies, fun b read pd h => absurd h (hb _ rfl b read pd)⟩
  | drop hpc hrcv h1 h5 h2 =>
    exact ⟨hw.input, fun pd hpd => hw.posted pd ((mem_of_rcv hrcv).2 pd hpd), hw.ready, hw.subs,
      hw.replies, hw.moved⟩
  | @route l x rest hpc hr =>
    have hready := hw.ready
    rw [hr] at hready
    have hsent : (w.sendProcessMsg (Main.routeTo l) (pcbToProcessData x 11) 1).Carried Q :=
      hw.sendProcessMsg fun _ => hready x List.mem_cons_self
    exact ⟨hsent.input, hsent.posted, fun y hy => hready y (List.mem_cons_of_mem _ hy), hsent.subs,
      hsent.replies, by simp⟩
  | refused hpc hrcv h12 =>
    have hreplies := hw.replies
    rw [hrcv] at hreplies
    exact ⟨hw.input, hw.posted, hw.ready, hw.subs,
      fun pd hpd => hreplies pd (List.mem_cons_of_mem _ hpd), by rintro _ _ _ ⟨⟩⟩
  | @reply b read resp rest hpc hrcv h12 =>
    have hreplies := hw.replies
    rw [hrcv] at hreplies
    refine ⟨hw.input, hw.posted, hw.ready, hw.subs,
      fun pd hpd => hreplies pd (List.mem_cons_of_mem _ hpd), fun b' read' pd h => ?_⟩
    obtain ⟨-, -, rfl⟩ := MainPc.resend.inj h
    exact hreplies _ List.mem_cons_self h12
  | @resend b read resp hpc =>
    exact (hw.sendProcessMsg fun _ => hw.moved b read resp hpc).goto (by simp)
  | stall hpc =>
    exact ⟨hw.input, hw.posted, hw.ready,
      fun c => ⟨(hw.subs c).msgq, (hw.subs c).fetched, (hw.subs c).ready⟩, hw.replies,
      by rintro _ _ _ ⟨⟩⟩
  | @steal b read hpc =>
    have hb := hw.subs b
    have hsent : (w.setSub b { w.sub b with sigurg := true }).Carried Q :=
      hw.setSub ⟨hb.msgq, hb.fetched, hb.ready⟩
    exact hsent.goto (by simp)
  | @bottom pc hpc hterm =>
    refine hw.setMain hw.ready fun b read pd h => ?_
    rcases hterm with ⟨-, -, rfl⟩ | ⟨-, rfl⟩ <;> cases h
  | term₁ hpc => exact (hw.sendProcessMsg fun h => absurd h (by decide)).goto (by simp)
  | term₂ hpc =>
    exact (hw.sendProcessMsg fun h => absurd h (by decide)).setMain hw.ready (by simp)
  | _ => exact ⟨hw.input, hw.posted, hw.ready, hw.subs, hw.replies, by rintro _ _ _ ⟨⟩⟩

/-- The generator posts a message. -/
theorem Carried.post (hw : w.Carried Q) {d : ProcessData} {g : Generator}
    (hin : ∀ pd ∈ g.queue, Q pd.job) (hd : d.mtype = 1 → Q d.job) : (w.post d g).Carried Q := by
  refine ⟨hin, fun pd hpd h1 => ?_, hw.ready, hw.subs, hw.replies, hw.moved⟩
  rcases List.mem_append.mp hpd with hpd | hpd
  · exact hw.posted pd hpd h1
  · obtain rfl := List.mem_singleton.mp hpd
    exact hd h1

theorem Carried.step (hw : w.Carried Q) (h0 : Q (0, 0, 0, 0)) (h : Steps P w e w') :
    w'.Carried Q := by
  cases h with
  | main h => exact h.carried hw
  | @sub c _ h =>
    have hc := hw.subs c
    cases h with
    | own hs => exact hw.setSub (hc.moves hs)
    | pass hpc h0 hgate =>
      have hpass : (w.setSub c { w.sub c with
          lastTick := (w.sub c).now, pc := .drain true }).Carried Q :=
        hw.setSub ⟨hc.msgq, nofun, hc.ready⟩
      exact ⟨hpass.input, hpass.posted, hpass.ready, hpass.subs, hpass.replies, hpass.moved⟩
    | @write k n t hpc =>
      have hwrite : (w.setSub c { w.sub c with pc := Sub.behindWrite k }).Carried Q := by
        refine hw.setSub ⟨hc.msgq, ?_, hc.ready⟩
        cases k <;> exact nofun
      exact ⟨hwrite.input, hwrite.posted, hwrite.ready, hwrite.subs, hwrite.replies, hwrite.moved⟩
    | ack hpc =>
      have hack : (w.setSub c { w.sub c with pc := .closing }).Carried Q :=
        hw.setSub ⟨hc.msgq, nofun, hc.ready⟩
      refine ⟨hack.input, hack.posted, hack.ready, hack.subs, fun pd hpd _ => ?_, hack.moved⟩
      rcases List.mem_append.mp hpd with hpd | hpd
      · exact hw.replies pd hpd ‹_›
      · rw [List.mem_singleton.mp hpd]
        exact h0
  | @steal c hsig hpc =>
    obtain ⟨hs, hreply⟩ := (hw.subs c).stealHandler w.clock
    have hgave : (w.setSub c ((w.sub c).stealHandler w.clock).1).Carried Q := hw.setSub hs
    refine ⟨hgave.input, hgave.posted, hgave.ready, hgave.subs, fun pd hpd hne => ?_, hgave.moved⟩
    rcases List.mem_append.mp hpd with hpd | hpd
    · exact hw.replies pd hpd hne
    · obtain rfl := List.mem_singleton.mp hpd
      exact hreply hne
  | @stall c hsig hpc =>
    obtain ⟨y, v, r, l, ch, hs, -⟩ := (w.sub c).stallSig_eq w.clock
    rw [hs]
    exact hw.setSub ⟨(hw.subs c).left, (hw.subs c).fetched, (hw.subs c).readyToSteal⟩
  | @child c s hs =>
    obtain ⟨fin, sem, rt, ch, rfl⟩ := Sub.childStep_eq_some hs
    exact hw.setSub ⟨(hw.subs c).msgq, (hw.subs c).fetched, (hw.subs c).ready⟩
  | observe hq _ _ => exact ⟨hq ▸ hw.input, hw.posted, hw.ready, hw.subs, hw.replies, hw.moved⟩
  | @send t pd q ht hq hdue =>
    have hin := hw.input
    rw [hq] at hin
    exact hw.post (fun d hd => hin d (List.mem_cons_of_mem _ hd)) fun _ => hin pd List.mem_cons_self
  | sync ht hq => exact hw.post hw.input fun h => absurd (show (2 : ℤ) = 1 from h) (by decide)
  | last hq ht hd => exact hw.post hw.input fun h => absurd (show (5 : ℤ) = 1 from h) (by decide)
  | tick => exact ⟨hw.input, hw.posted, hw.ready, hw.subs, hw.replies, hw.moved⟩

theorem start_carried {l : List ProcessData} (h : ∀ pd ∈ l, Q pd.job) : (start l).Carried Q :=
  ⟨h, List.forall_mem_nil _, List.forall_mem_nil _,
    fun _ => ⟨List.forall_mem_nil _, nofun, List.forall_mem_nil _⟩, List.forall_mem_nil _, nofun⟩

end World

end Dual

end CpuScheduler
