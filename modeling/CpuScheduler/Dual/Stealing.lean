import CpuScheduler.Dual.Balance
import CpuScheduler.Dual.Moves

/-!
# Stealing until the loads are balanced

While `check_threshold` moves processes, both sub-schedulers are stalled, and the main scheduler
does nothing but wait and check again. A turn of this (`CpuScheduler.Dual.World.round`) is a run of
the program from one call of `check_threshold` to the next one, and what it does to the ready
queues is one move of the abstract balance (`CpuScheduler.Dual.World.Calm.round`): the table
that the main scheduler writes after a move is what the sub-schedulers would write. So stealing
comes to an end exactly when the moves of the balance do
(`CpuScheduler.Dual.World.stealing_ends_iff`).
-/

namespace CpuScheduler

namespace Dual

namespace Sub

/-- What `update_load_shm` writes. -/
def slot (s : Sub) : Slot where
  count := s.readyQueue.length
  totalRT := totalRemainingTime s.readyQueue + s.runningRemainingTime

/-- No process runs: the one that is on the CPU has the same time left. -/
def Idle (s s' : Sub) : Prop :=
  s'.pc = s.pc ∧ s'.currProcess.isSome = s.currProcess.isSome ∧ s'.shmRT = s.shmRT

theorem Idle.trans {s s' s'' : Sub} (h : s.Idle s') (h' : s'.Idle s'') : s.Idle s'' :=
  ⟨h'.1.trans h.1, h'.2.1.trans h.2.1, h'.2.2.trans h.2.2⟩

theorem Idle.running {s s' : Sub} (h : s.Idle s') :
    s'.runningRemainingTime = s.runningRemainingTime := by
  rw [runningRemainingTime, runningRemainingTime, h.2.1, h.2.2]

/-- `stall_sig` stops the running process, and receives what there is. -/
theorem stallSig_idle (s : Sub) (clk : ℤ) : s.Idle (s.stallSig clk) ∧
    (s.stallSig clk).readyQueue = s.readyToSteal ∧ (s.stallSig clk).msgq = left s.msgq ∧
    (s.stallSig clk).sigusr2 = false := by
  obtain ⟨y, v, r, l, ch, hs, hy⟩ := s.stallSig_eq clk
  have hsome : y.isSome = s.currProcess.isSome := by
    rw [← Option.isSome_map, hy, Option.isSome_map]
  rw [hs]
  exact ⟨⟨rfl, hsome, rfl⟩, rfl, rfl, rfl⟩

theorem running_nonneg (s : Sub) : 0 ≤ s.runningRemainingTime := by
  rw [runningRemainingTime]
  split_ifs
  · exact le_max_right _ _
  · exact le_rfl

/-- `steal_handler` with nothing to receive. -/
theorem stealHandler_of_concat {s : Sub} {q : List PCB} {x : PCB} (hq : s.readyQueue = q ++ [x])
    (hm : s.msgq = []) (clk : ℤ) : ∃ s', s.stealHandler clk = (s', pcbToProcessData x 11) ∧
      s.Idle s' ∧ s'.readyQueue = q ∧ s'.msgq = [] := by
  have hready : s.readyToSteal = q ++ [x] := by
    rw [readyToSteal, hm, hq]
    exact List.append_nil _
  rcases s.stealHandler_cases clk with ⟨hnil, -⟩ | ⟨x', q', hq', v, r, hs⟩
  · exact absurd (hready.symm.trans hnil)
      (List.append_ne_nil_of_right_ne_nil q (List.cons_ne_nil x []))
  · obtain ⟨rfl, hx⟩ := List.append_inj' (hready.symm.trans hq') rfl
    obtain rfl : x = x' := List.head_eq_of_cons_eq hx
    exact ⟨_, hs, ⟨rfl, rfl, rfl⟩, rfl, by rw [hm]; rfl⟩

theorem stealHandler_of_nil {s : Sub} (hq : s.readyQueue = []) (hm : s.msgq = []) (clk : ℤ) :
    ∃ s', s.stealHandler clk = (s', bareMsg 12) ∧ s'.sigusr2 = s.sigusr2 := by
  have hready : s.readyToSteal = [] := by
    rw [readyToSteal, hm, hq]
    rfl
  rcases s.stealHandler_cases clk with ⟨-, v, r, hs⟩ | ⟨x, q, hq', -⟩
  · exact ⟨_, hs, rfl⟩
  · exact absurd (hready.symm.trans hq').symm
      (List.append_ne_nil_of_right_ne_nil q (List.cons_ne_nil x []))

end Sub

namespace World

open Fallible StateTransition TransitionSystem

variable {P : Params} {w w' w₁ : World} {c d b : Cpu} {e : Event} {l l' : List Event}

theorem playAll_cons (h : next P w e = some w₁) :
    playAll (next P) w (e :: l) = playAll (next P) w₁ l := by
  rw [playAll, h]
  rfl

theorem next_main (h : w.mainNext P = .ok w') : next P w .main = some w' :=
  toOption_eq_some.mpr h

theorem playAll_ticks (w : World) (l : List Event) :
    playAll (next P) w (.tick :: .tick :: .tick :: l) =
      playAll (next P) { w with clock := w.clock + 3 } l := by
  have hclk : w.clock + 3 = w.clock + 1 + 1 + 1 := by omega
  rw [hclk]
  rfl

/-- The main scheduler waits, and comes to the next tick. -/
theorem playAll_wait (hpc : w.main.pc = .waitStart) (hterm : w.main.termSentToSubs = true)
    (hsubs : w.main.subsTerminated < 2)
    (hlast : w.main.lastTick ≤ w.clock) (hresp : w.resp = []) :
    playAll (next P) w (.main :: .tick :: .tick :: .tick :: .main :: .main :: .main :: .main :: l) =
      playAll (next P) { w with
        main := { w.main with
          lastTick := w.clock + 3
          now := w.clock + 3
          waitSub := (w.load .one).totalRT + (w.load .two).totalRT
          pc := .shut }
        gate := 2
        clock := w.clock + 3 } l := by
  have h₁ : next P w .main = some (w.goto (.wait (w.clock + 3))) :=
    next_main (by rw [mainNext, hpc])
  rw [playAll_cons h₁, playAll_ticks]
  have h₂ : next P { w.goto (.wait (w.clock + 3)) with clock := w.clock + 3 } .main =
      some ({ w with clock := w.clock + 3 }.goto .opening) :=
    next_main (if_neg (lt_irrefl _))
  have h₃ : next P ({ w with clock := w.clock + 3 }.goto .opening) .main =
      some ({ w with clock := w.clock + 3, gate := 2 }.goto .bottom) := rfl
  have h₄ : next P ({ w with clock := w.clock + 3, gate := 2 }.goto .bottom) .main =
      some { w with
        main := { w.main with
          waitSub := (w.load .one).totalRT + (w.load .two).totalRT, pc := .top }
        clock := w.clock + 3
        gate := 2 } := by
    refine next_main (congrArg Except.ok ?_)
    rw [bottom]
    simp only [goto, hterm, Bool.not_true, Bool.false_eq_true, and_false, if_false]
  refine (playAll_cons h₂).trans ((playAll_cons h₃).trans ((playAll_cons h₄).trans ?_))
  refine playAll_cons (next_main (congrArg Except.ok ?_))
  have hgo : ({ w.main with
      waitSub := (w.load .one).totalRT + (w.load .two).totalRT, pc := .top } : Main).goesOn =
        true := by
    rw [Main.goesOn, decide_eq_true hsubs, Bool.or_true]
  have hne : w.clock + 3 ≠ w.main.lastTick := by omega
  rw [top]
  simp only [hgo, if_true, hresp, List.filter_nil, List.length_nil, Nat.add_zero, if_neg hne]

/-- In the next tick there is nothing to route, and since the CPUs are stalled, the threshold is
checked again. -/
theorem playAll_turn (hpc : w.main.pc = .shut) (hst : w.main.stalled = true) (hN : P.N ≠ 0)
    (hq : w.main.readyQueue = []) (hrec : w.main.receivingProcesses = false)
    (h0 : 0 < w.main.now) :
    playAll (next P) w [.main, .main, .main] = some ({ w with gate := 0 }.goto .threshold) := by
  have h₁ : next P w .main = some ({ w with gate := 0 }.goto .load) :=
    next_main (by rw [mainNext, hpc, hrec, Main.behindReceive, if_pos h0]; rfl)
  have h₂ : next P ({ w with gate := 0 }.goto .load) .main =
      some ({ w with gate := 0 }.goto .check) := by
    refine next_main (congrArg Except.ok ?_)
    change (World.goto _ (if Queue.isEmpty w.main.readyQueue then _ else _)) = _
    rw [hq]
    rfl
  have h₃ : next P ({ w with gate := 0 }.goto .check) .main =
      some ({ w with gate := 0 }.goto .threshold) := by
    refine next_main (congrArg Except.ok ?_)
    rw [check]
    exact (if_neg hN).trans (if_pos (Or.inr hst))
  exact (playAll_cons h₁).trans ((playAll_cons h₂).trans ((playAll_cons h₃).trans rfl))

/-- Both sub-schedulers are stalled. -/
theorem playAll_stall (hsig : ∀ c, (w.sub c).sigusr2 = true) (hpc : ∀ c, (w.sub c).pc ≠ .exited) :
    playAll (next P) w (.stall .one :: .stall .two :: l) =
      playAll (next P) { w with sub := fun c => (w.sub c).stallSig w.clock } l := by
  have h₁ : next P w (.stall .one) =
      some (w.setSub .one ((w.sub .one).stallSig w.clock)) := if_pos ⟨hsig _, hpc _⟩
  have h₂ : next P (w.setSub .one ((w.sub .one).stallSig w.clock)) (.stall .two) =
      some { w with sub := fun c => (w.sub c).stallSig w.clock } := by
    refine (if_pos ⟨hsig .two, hpc .two⟩).trans (congrArg some ?_)
    rw [setSub, setSub]
    congr 1
    funext c
    cases c <;> rfl
  exact (playAll_cons h₁).trans (playAll_cons h₂)

/-- The command, up to the reply. -/
theorem playAll_command {b : Cpu} (hpc : w.main.pc = .threshold) (hM : Main.diff w.load > P.M)
    (hb : b = Main.busier w.load) (halive : (w.sub b).pc ≠ .exited) :
    playAll (next P) w (.main :: .main :: .steal b :: l) = playAll (next P)
      { w with
        main := { w.main with stalled := true, pc := .await b w.load }
        sub := Function.update w.sub b
          (({ w.sub b with sigurg := true } : Sub).stealHandler w.clock).1
        resp :=
          w.resp ++ [(({ w.sub b with sigurg := true } : Sub).stealHandler w.clock).2] } l := by
  subst hb
  have h₁ : next P w .main = some { w with main := { w.main with
      stalled := true, pc := .steal (Main.busier w.load) w.load } } := by
    refine next_main ?_
    rw [mainNext, hpc]
    exact congrArg Except.ok (if_pos hM)
  have h₂ : next P { w with main := { w.main with
      stalled := true, pc := .steal (Main.busier w.load) w.load } } .main =
      some { w with
        main := { w.main with stalled := true, pc := .await (Main.busier w.load) w.load }
        sub := Function.update w.sub (Main.busier w.load)
          { w.sub (Main.busier w.load) with sigurg := true } } := rfl
  refine (playAll_cons h₁).trans ((playAll_cons h₂).trans (playAll_cons ?_))
  have hself := Function.update_self (Main.busier w.load)
    ({ w.sub (Main.busier w.load) with sigurg := true } : Sub) w.sub
  have hsig : (Function.update w.sub (Main.busier w.load)
      { w.sub (Main.busier w.load) with sigurg := true } (Main.busier w.load)).sigurg = true := by
    rw [hself]
  have hpc' : (Function.update w.sub (Main.busier w.load)
      { w.sub (Main.busier w.load) with sigurg := true } (Main.busier w.load)).pc ≠ .exited := by
    rw [hself]
    exact halive
  refine (if_pos ⟨hsig, hpc'⟩).trans (congrArg some ?_)
  rw [steal, setSub]
  dsimp only
  rw [hself, Function.update_idem]

/-- The reply, the message to the other CPU, and the signals. -/
theorem playAll_reply {b : Cpu} {read : Load} {resp : ProcessData} {S : Cpu → Sub}
    (hpc : w.main.pc = .await b read) (hresp : w.resp = [resp]) (h12 : resp.mtype ≠ 12)
    (hS : S = fun c => { (w.sendProcessMsg b.other resp 1).sub c with sigusr2 := true }) :
    playAll (next P) w (.main :: .main :: .main :: .main :: l) = playAll (next P)
      { w with
        main := { w.main with pc := .waitStart }
        sub := S
        load := Main.reflect read b resp.runtime
        resp := [] } l := by
  have h₁ : next P w .main = some ({ w with resp := [] }.goto (.resend b read resp)) := by
    refine next_main ?_
    rw [mainNext, hpc]
    change w.await b read = _
    rw [await, hresp]
    exact if_neg h12
  subst hS
  exact (playAll_cons h₁).trans rfl

/-- There is no process to be given back. -/
theorem playAll_refused {b : Cpu} {read : Load} {resp : ProcessData}
    (hpc : w.main.pc = .await b read) (hresp : w.resp = [resp]) (h12 : resp.mtype = 12)
    (hterm : w.main.termSentToSubs = true) (hsig : ∀ c, (w.sub c).sigusr2 = false) :
    playAll (next P) w (.main :: .main :: .main :: .main :: .stall c :: l) = none := by
  have h₁ : next P w .main = some ({ w with resp := [] }.goto .opening) := by
    refine next_main ?_
    rw [mainNext, hpc]
    change w.await b read = _
    rw [await, hresp]
    exact if_pos h12
  have h₂ : next P ({ w with resp := [] }.goto .opening) .main =
      some ({ w with resp := [], gate := 2 }.goto .bottom) := rfl
  have h₃ : next P ({ w with resp := [], gate := 2 }.goto .bottom) .main =
      some { w with
        main := { w.main with
          waitSub := (w.load .one).totalRT + (w.load .two).totalRT, pc := .top }
        resp := []
        gate := 2 } := by
    refine next_main (congrArg Except.ok ?_)
    rw [bottom]
    simp only [goto, hterm, Bool.not_true, Bool.false_eq_true, and_false, if_false]
  refine (playAll_cons h₁).trans ((playAll_cons h₂).trans ((playAll_cons h₃).trans ?_))
  have hstall : ∀ w' : World, w'.sub = w.sub → playAll (next P) w' (.stall c :: l) = none := by
    intro w' hw'
    have hnone : next P w' (.stall c) = none := by
      refine if_neg ?_
      rw [hw', hsig c]
      exact fun h => absurd h.1 (by simp)
    rw [playAll, hnone]
    rfl
  -- whatever the next turn of the main scheduler is
  have htop : ∀ w' : World, w'.main.pc = .top → ∃ w'', next P w' .main = some w'' ∧
      w''.sub = w'.sub := by
    intro w' hpc'
    refine ⟨w'.top, next_main (by rw [mainNext, hpc']), ?_⟩
    rw [top]
    split_ifs
    · dsimp only
      split_ifs <;> rfl
    · rfl
  obtain ⟨w'', hw'', hsub⟩ := htop { w with
    main := { w.main with waitSub := (w.load .one).totalRT + (w.load .two).totalRT, pc := .top }
    resp := []
    gate := 2 } rfl
  exact (playAll_cons hw'').trans (hstall w'' hsub)

/-! ### A call of `check_threshold` -/

/-- The steps of a call of `check_threshold` that moves a process, up to the next call. -/
def round (b : Cpu) : List Event :=
  [.main, .main, .steal b, .main, .main, .main, .main, .stall .one, .stall .two,
    .main, .tick, .tick, .tick, .main, .main, .main, .main, .main, .main, .main]

/-- **One turn of stealing**: from a call of `check_threshold` that finds a process to steal to
the next one. -/
def stealRound (P : Params) (w : World) : Option World :=
  if Main.diff w.load > P.M then playAll (next P) w (round (Main.busier w.load)) else none

/-- **In front of a call of `check_threshold`, with nothing under way**: everything has been
routed, all messages have been received, the loads are up to date, and the ready processes have
not been started. -/
structure Calm (P : Params) (w : World) : Prop where
  pc : w.main.pc = .threshold
  N : P.N ≠ 0
  queue : w.main.readyQueue = []
  receiving : w.main.receivingProcesses = false
  term : w.main.termSentToSubs = true
  subs : w.main.subsTerminated < 2
  last : w.main.lastTick ≤ w.clock
  zero : 0 ≤ w.clock
  resp : w.resp = []
  alive : ∀ c, (w.sub c).pc ≠ .exited
  msgq : ∀ c, (w.sub c).msgq = []
  signals : ∀ c, (w.sub c).sigusr2 = false
  unstarted : ∀ c, ∀ x ∈ (w.sub c).readyQueue, x.remainingTime = x.runtime ∧ 0 < x.runtime
  load : ∀ c, w.load c = (w.sub c).slot

/-- What there is to be balanced. -/
def balance (w : World) : Balance where
  running c := (w.sub c).runningRemainingTime
  ready c := (w.sub c).readyQueue.map PCB.remainingTime

theorem Calm.total (hw : Calm P w) (c : Cpu) : w.balance.total c = (w.load c).totalRT := by
  rw [hw.load c]
  exact add_comm _ _

theorem Calm.gap (hw : Calm P w) : w.balance.gap = Main.diff w.load := by
  rw [Balance.gap, hw.total, hw.total, Main.diff]

theorem Calm.heavy (hw : Calm P w) : w.balance.heavy = Main.busier w.load := by
  rw [Balance.heavy, hw.total, hw.total, Main.busier]

theorem Calm.positive (hw : Calm P w) : w.balance.Positive := by
  intro c t ht
  obtain ⟨x, hx, rfl⟩ := List.mem_map.mp ht
  obtain ⟨heq, hpos⟩ := hw.unstarted c x hx
  exact heq ▸ hpos

/-- What the main scheduler writes into the table after a move is what the sub-scheduler that has
given the process back would write. -/
theorem reflect_self {l : Load} {s s' : Sub} {q : List PCB} {x : PCB} (hl : l b = s.slot)
    (hq : s.readyQueue = q ++ [x]) (hx : x.remainingTime = x.runtime)
    (hpos : ∀ z ∈ q, 0 < z.remainingTime) (hidle : s.Idle s') (hq' : s'.readyQueue = q) :
    Main.reflect l b x.runtime b = s'.slot := by
  have hcount : (l b).count = q.length + 1 := by
    rw [hl, Sub.slot, hq, List.length_append, List.length_singleton, Nat.cast_add, Nat.cast_one]
  have htotal : (l b).totalRT = totalRemainingTime q + s.runningRemainingTime + x.runtime := by
    rw [hl, Sub.slot, hq, totalRemainingTime, totalRemainingTime, List.map_append, List.sum_append,
      List.map_singleton, List.sum_singleton, hx]
    dsimp only
    omega
  have hnonneg : 0 ≤ totalRemainingTime q := List.sum_nonneg fun t ht => by
    obtain ⟨z, hz, rfl⟩ := List.mem_map.mp ht
    exact (hpos z hz).le
  have hrun := s.running_nonneg
  rw [Main.reflect, if_pos rfl, Sub.slot, hq', hidle.running, if_pos (by omega), if_neg (by omega)]
  exact congrArg₂ Slot.mk (by omega) (by omega)

/-- And so for the one that receives it. -/
theorem reflect_other {l : Load} {s s' : Sub} {x y : PCB} (hl : l b.other = s.slot)
    (hy : y.remainingTime = x.runtime) (hidle : s.Idle s')
    (hq' : s'.readyQueue = s.readyQueue ++ [y]) :
    Main.reflect l b x.runtime b.other = s'.slot := by
  rw [Main.reflect, if_neg b.other_ne, Sub.slot, hq', hidle.running, hl, Sub.slot,
    List.length_append, List.length_singleton, Nat.cast_add, Nat.cast_one, totalRemainingTime,
    totalRemainingTime, List.map_append, List.sum_append, List.map_singleton, List.sum_singleton,
    hy]
  exact congrArg₂ Slot.mk rfl (by dsimp only; omega)

/-- The two sub-schedulers after a turn: the process has gone from one to the other. -/
theorem Calm.round_of_concat (hw : Calm P w) (hM : Main.diff w.load > P.M) {b : Cpu}
    (hb : b = Main.busier w.load) {q : List PCB} {x : PCB} (hq : (w.sub b).readyQueue = q ++ [x]) :
    ∃ w', stealRound P w = some w' ∧ Calm P w' ∧
      w'.balance = w.balance.moved b (q.map PCB.remainingTime) x.remainingTime := by
  obtain ⟨s, hs, hidle, hsq, hsm⟩ := Sub.stealHandler_of_concat
    (s := { w.sub b with sigurg := true }) hq (hw.msgq b) w.clock
  -- the state when the signals have been sent
  obtain ⟨S, hS⟩ : ∃ S, S = fun c => ({ (World.sendProcessMsg { w with
      main := { w.main with stalled := true, pc := .await b w.load }
      sub := Function.update w.sub b s
      resp := [pcbToProcessData x 11] } b.other (pcbToProcessData x 11) 1).sub c with
        sigusr2 := true } : Sub) := ⟨_, rfl⟩
  have hSb : S b = { s with sigusr2 := true } := by
    rw [hS]
    dsimp only
    rw [sendProcessMsg, setSub_sub_of_ne _ _ b.other_ne.symm]
    dsimp only
    rw [Function.update_self]
  have hSo : S b.other = { w.sub b.other with
      msgq := [{ pcbToProcessData x 11 with mtype := 1 }], sigusr2 := true } := by
    rw [hS]
    dsimp only
    rw [sendProcessMsg, setSub_sub_self]
    dsimp only
    rw [Function.update_of_ne b.other_ne, hw.msgq]
    rfl
  have hrun : stealRound P w = some { w with
      main := { w.main with
        stalled := true
        lastTick := w.clock + 3
        now := w.clock + 3
        waitSub := (Main.reflect w.load b x.runtime .one).totalRT +
          (Main.reflect w.load b x.runtime .two).totalRT
        pc := .threshold }
      sub := fun c => (S c).stallSig w.clock
      load := Main.reflect w.load b x.runtime
      resp := []
      gate := 0
      clock := w.clock + 3 } := by
    rw [stealRound, if_pos hM, ← hb, round]
    refine (playAll_command hw.pc hM hb (hw.alive b)).trans ?_
    rw [hs, hw.resp]
    have h12 : (pcbToProcessData x 11).mtype ≠ 12 := (by decide : (11 : ℤ) ≠ 12)
    refine (playAll_reply rfl rfl h12 hS).trans ?_
    have hsig : ∀ c, (S c).sigusr2 = true := fun c => by rw [hS]
    have halive : ∀ c, (S c).pc ≠ .exited := by
      intro c
      rcases b.eq_or c with rfl | rfl
      · rw [hSb]
        exact hidle.1.symm ▸ hw.alive _
      · rw [hSo]
        exact hw.alive _
    refine (playAll_stall hsig halive).trans ?_
    refine (playAll_wait ?_ ?_ ?_ ?_ ?_).trans ?_
    · rfl
    · exact hw.term
    · exact hw.subs
    · exact hw.last
    · rfl
    · have hpos : 0 < w.clock + 3 := by
        have := hw.zero
        omega
      exact playAll_turn rfl rfl hw.N hw.queue hw.receiving hpos
  -- what the two sub-schedulers have then
  have hidle' : ∀ c, (w.sub c).Idle ((S c).stallSig w.clock) := by
    intro c
    refine Sub.Idle.trans ?_ ((S c).stallSig_idle w.clock).1
    rcases b.eq_or c with rfl | rfl
    · rw [hSb]
      exact hidle
    · rw [hSo]
      exact ⟨rfl, rfl, rfl⟩
  have hmsgq : ∀ c, ((S c).stallSig w.clock).msgq = [] := by
    intro c
    rw [((S c).stallSig_idle w.clock).2.2.1]
    rcases b.eq_or c with rfl | rfl
    · rw [hSb]
      exact congrArg left hsm
    · rw [hSo]
      rfl
  have hself : ((S b).stallSig w.clock).readyQueue = q := by
    rw [((S b).stallSig_idle w.clock).2.1, hSb]
    change s.readyQueue ++ (news s.msgq).map createPCB = q
    rw [hsq, hsm]
    exact List.append_nil q
  obtain ⟨y, hy, hother⟩ : ∃ y : PCB, (y.remainingTime = x.runtime ∧ y.runtime = x.runtime) ∧
      ((S b.other).stallSig w.clock).readyQueue = (w.sub b.other).readyQueue ++ [y] := by
    refine ⟨createPCB { pcbToProcessData x 11 with mtype := 1 }, ⟨rfl, rfl⟩, ?_⟩
    rw [((S b.other).stallSig_idle w.clock).2.1, hSo]
    rfl
  obtain ⟨hx, hxpos⟩ := hw.unstarted b x (hq ▸ List.mem_append_right q (List.mem_singleton_self x))
  refine ⟨_, hrun, ?_, ?_⟩
  · refine ⟨rfl, hw.N, hw.queue, hw.receiving, hw.term, hw.subs, le_rfl, ?_, rfl, fun c => ?_,
      hmsgq, fun c => ((S c).stallSig_idle w.clock).2.2.2, fun c => ?_, fun c => ?_⟩
    · exact add_nonneg hw.zero (by decide)
    · exact (hidle' c).1.symm ▸ hw.alive c
    · rcases b.eq_or c with rfl | rfl
      · change ∀ z ∈ ((S c).stallSig w.clock).readyQueue, _
        rw [hself]
        exact fun z hz => hw.unstarted c z (hq ▸ List.mem_append_left _ hz)
      · change ∀ z ∈ ((S b.other).stallSig w.clock).readyQueue, _
        rw [hother]
        intro z hz
        rcases List.mem_append.mp hz with hz | hz
        · exact hw.unstarted _ z hz
        · obtain rfl := List.mem_singleton.mp hz
          exact ⟨hy.1.trans hy.2.symm, hy.2 ▸ hxpos⟩
    · have hpos : ∀ z ∈ q, 0 < z.remainingTime := by
        intro z hz
        obtain ⟨heq, hlt⟩ := hw.unstarted b z (hq ▸ List.mem_append_left _ hz)
        exact heq ▸ hlt
      rcases b.eq_or c with rfl | rfl
      · exact reflect_self (hw.load c) hq hx hpos (hidle' c) hself
      · exact reflect_other (hw.load _) hy.1 (hidle' _) hother
  · refine Balance.ext (funext fun c => (hidle' c).running) (funext fun c => ?_)
    rcases b.eq_or c with rfl | rfl
    · rw [Balance.moved_ready_self]
      exact congrArg (List.map PCB.remainingTime) hself
    · rw [Balance.moved_ready_other]
      change ((S b.other).stallSig w.clock).readyQueue.map PCB.remainingTime = _
      rw [hother, List.map_append, List.map_singleton, hy.1, ← hx]
      rfl

/-- There is nothing to be moved. -/
theorem Calm.round_of_nil (hw : Calm P w) (hq : (w.sub (Main.busier w.load)).readyQueue = []) :
    stealRound P w = none := by
  rw [stealRound]
  split_ifs with hM
  · obtain ⟨s, hs, hsig⟩ := Sub.stealHandler_of_nil
      (s := { w.sub (Main.busier w.load) with sigurg := true }) hq (hw.msgq _) w.clock
    refine (playAll_command hw.pc hM rfl (hw.alive _)).trans ?_
    rw [hs, hw.resp]
    refine playAll_refused rfl rfl rfl hw.term fun c => ?_
    dsimp only
    by_cases hc : c = Main.busier w.load
    · rw [hc, Function.update_self, hsig]
      exact hw.signals _
    · rw [Function.update_of_ne hc]
      exact hw.signals c
  · rfl

/-- **A turn of the program is a move of the balance.** -/
theorem Calm.round (hw : Calm P w) :
    (∃ w', stealRound P w = some w' ∧ Calm P w' ∧
      Balance.step P.M w.balance = some w'.balance) ∨
    (stealRound P w = none ∧ Balance.step P.M w.balance = none) := by
  rcases le_or_gt (Main.diff w.load) P.M with hle | hgt
  · exact Or.inr ⟨if_neg (not_lt.mpr hle), Balance.step_of_le (hw.gap.trans_le hle)⟩
  have hready : w.balance.ready w.balance.heavy =
      (w.sub (Main.busier w.load)).readyQueue.map PCB.remainingTime := by
    rw [hw.heavy]
    rfl
  rcases List.eq_nil_or_concat (w.sub (Main.busier w.load)).readyQueue with hnil | ⟨q, x, hq⟩
  · rw [hnil] at hready
    exact Or.inr ⟨hw.round_of_nil hnil, Balance.step_of_nil hready⟩
  · rw [List.concat_eq_append] at hq
    rw [hq, List.map_append] at hready
    obtain ⟨w', hrun, hcalm, hbal⟩ := hw.round_of_concat hgt rfl hq
    refine Or.inl ⟨w', hrun, hcalm, ?_⟩
    rw [Balance.step_of_concat (hw.gap ▸ hgt) hready, hbal, hw.heavy]

/-! ### All calls -/

/-- The turns of the program follow the moves of the balance. -/
theorem respects (P : Params) : Respects (Balance.step P.M) (stealRound P)
    fun b w => Calm P w ∧ b = w.balance := by
  rintro _ w ⟨hw, rfl⟩
  rcases hw.round with ⟨w', hrun, hcalm, hstep⟩ | ⟨hrun, hstep⟩
  · rw [hstep]
    exact ⟨w', ⟨hcalm, rfl⟩, .single hrun⟩
  · rw [hstep]
    exact hrun

theorem Calm.reaches (hw : Calm P w) (h : Reaches (stealRound P) w w') : Calm P w' := by
  induction h with
  | refl => exact hw
  | tail _ hst ih =>
    rcases ih.round with ⟨w₁, hrun, hcalm, -⟩ | ⟨hrun, -⟩
    · exact Option.mem_unique hrun hst ▸ hcalm
    · exact nomatch hrun.symm.trans hst

/-- **Stealing comes to an end**: after finitely many processes have been moved, the difference
is small enough, or the busier CPU has none to give back. -/
def StealingEnds (P : Params) (w : World) : Prop :=
  ∃ w', Reaches (stealRound P) w w' ∧
    (Main.diff w'.load ≤ P.M ∨ (w'.sub (Main.busier w'.load)).readyQueue = [])

/-- **A process tips the scales**: when those behind it in the queue of the busier CPU have been
moved, the difference is still more than `M`, and when it has been moved as well, the other CPU is
the busier one by more than `M`. -/
def Tips (M : ℤ) (w : World) : Prop :=
  ∃ l x r, (w.sub (Main.busier w.load)).readyQueue = l ++ x :: r ∧
    Main.diff w.load - 2 * totalRemainingTime r > M ∧
    Main.diff w.load - 2 * (totalRemainingTime r + x.remainingTime) < -M

theorem Calm.tips_iff (hw : Calm P w) {M : ℤ} : w.balance.Tips M ↔ w.Tips M := by
  have hready : w.balance.ready w.balance.heavy =
      (w.sub (Main.busier w.load)).readyQueue.map PCB.remainingTime := by
    rw [hw.heavy]
    rfl
  rw [Balance.Tips, hready, hw.gap]
  constructor
  · rintro ⟨l, x, r, h, hgt, hlt⟩
    obtain ⟨l', t, hq, rfl, ht⟩ := List.map_eq_append_iff.mp h
    obtain ⟨y, r', rfl, rfl, rfl⟩ := List.map_eq_cons_iff.mp ht
    exact ⟨l', y, r', hq, hgt, hlt⟩
  · rintro ⟨l, x, r, hq, hgt, hlt⟩
    exact ⟨_, _, _, by rw [hq, List.map_append, List.map_cons], hgt, hlt⟩

theorem Calm.ends_iff_dom (hw : Calm P w) :
    StealingEnds P w ↔ (eval (Balance.step P.M) w.balance).Dom := by
  rw [← tr_eval_dom (respects P) ⟨hw, rfl⟩, Halting.dom_iff_exists]
  refine exists_congr fun w' => and_congr_right fun h => ?_
  have hw' := hw.reaches h
  have hready : w'.balance.ready w'.balance.heavy = [] ↔
      (w'.sub (Main.busier w'.load)).readyQueue = [] := by
    rw [hw'.heavy]
    exact List.map_eq_nil_iff
  rw [← hw'.gap, ← hready, ← Balance.step_eq_none_iff]
  rcases hw'.round with ⟨w'', hrun, -, hstep⟩ | ⟨hrun, hstep⟩
  · rw [hrun, hstep]
    exact iff_of_false nofun nofun
  · exact iff_of_true hstep hrun

/-- **Stealing comes to an end exactly when no process tips the scales.** -/
theorem stealing_ends_iff (hw : Calm P w) (hM : 0 ≤ P.M) : StealingEnds P w ↔ ¬w.Tips P.M := by
  rw [hw.ends_iff_dom, Balance.dom_iff hM hw.positive, hw.tips_iff]

/-! ### Explicit runs -/

instance (pc : MainPc) : Decidable (pc = .threshold) :=
  match pc with
  | .threshold => isTrue rfl
  | .top | .shut | .receive | .load | .route _ | .publish _ | .check | .steal .. | .await ..
  | .resend .. | .reflect .. | .stall | .waitStart | .wait _ | .opening | .bottom | .term _
  | .leave | .done | .crashed => isFalse nofun

instance : Decidable (Calm P w) :=
  decidable_of_iff ((w.main.pc = .threshold ∧ P.N ≠ 0 ∧ w.main.readyQueue = [] ∧
      w.main.receivingProcesses = false ∧ w.main.termSentToSubs = true ∧
      w.main.subsTerminated < 2 ∧ w.main.lastTick ≤ w.clock ∧ 0 ≤ w.clock ∧ w.resp = []) ∧
      ∀ c, (w.sub c).pc ≠ .exited ∧ (w.sub c).msgq = [] ∧ (w.sub c).sigusr2 = false ∧
        (∀ x ∈ (w.sub c).readyQueue, x.remainingTime = x.runtime ∧ 0 < x.runtime) ∧
        w.load c = (w.sub c).slot)
    ⟨fun ⟨⟨h₁, h₂, h₃, h₄, h₅, h₆, h₇, h₈, h₉⟩, h⟩ =>
      ⟨h₁, h₂, h₃, h₄, h₅, h₆, h₇, h₈, h₉, fun c => (h c).1, fun c => (h c).2.1,
        fun c => (h c).2.2.1, fun c => (h c).2.2.2.1, fun c => (h c).2.2.2.2⟩,
    fun h => ⟨⟨h.pc, h.N, h.queue, h.receiving, h.term, h.subs, h.last, h.zero, h.resp⟩,
      fun c => ⟨h.alive c, h.msgq c, h.signals c, h.unstarted c, h.load c⟩⟩⟩

/-- A process that arrives at tick 1. -/
def processOf (id runtime : ℤ) : ProcessData := { soleProcess 0 with id := id, runtime := runtime }

/-- The `n` processes are routed at tick 2, and the sub-schedulers receive `k₁` and `k₂` of them
and the last message. At tick 3 the main scheduler is in front of `check_threshold`. -/
def calmRun (n k₁ k₂ : ℕ) : List Event :=
  List.flatten [[.tick, .observe], List.replicate n .send, [.sync, .last, .tick],
    List.replicate (2 * n + 12) .main, List.replicate (2 * k₁ + 4) (.sub .one),
    List.replicate (2 * k₂ + 4) (.sub .two), [.tick], List.replicate 4 .main]

/-- Runtimes of 5 and 2 on one CPU and 1 on the other, and a bound of 2: one process is moved. -/
theorem stealing_ends_three : ∃ w,
    playAll (next { N := 3, M := 2 }) (start [processOf 7 5, processOf 8 1, processOf 9 2])
      (calmRun 3 2 1) = some w ∧ StealingEnds { N := 3, M := 2 } w := by
  have hrun : (playAll (next { N := 3, M := 2 })
      (start [processOf 7 5, processOf 8 1, processOf 9 2]) (calmRun 3 2 1)).map
      (fun w => (decide (Calm { N := 3, M := 2 } w), Main.busier w.load, Main.diff w.load,
        (w.sub .one).readyQueue.map PCB.remainingTime)) = some (true, .one, 6, [5, 2]) := by
    decide +kernel
  obtain ⟨w, hw, h⟩ := Option.map_eq_some_iff.mp hrun
  obtain ⟨hcalm, hbusy, hdiff, hq⟩ : _ ∧ _ ∧ _ ∧ _ := by simpa only [Prod.mk.injEq] using h
  have hcalm := of_decide_eq_true hcalm
  refine ⟨w, hw, (stealing_ends_iff hcalm (by decide)).mpr ?_⟩
  rw [← hcalm.tips_iff]
  rintro ⟨l, x, r, hlist, hgt, hlt⟩
  rw [hcalm.gap, hdiff] at hgt hlt
  rw [hcalm.heavy, hbusy] at hlist
  have hlist : [5, 2] = l ++ x :: r := hq.symm.trans hlist
  rcases l with - | ⟨a, - | ⟨a', l⟩⟩
  · obtain ⟨rfl, rfl⟩ := List.cons.inj hlist
    exact absurd hgt (by decide)
  · obtain ⟨rfl, rfl⟩ := List.cons.inj (List.cons.inj hlist).2
    exact absurd hlt (by decide)
  · exact absurd (congrArg List.length hlist) (by simp)

/-- **A process goes back and forth for ever**: the runtimes are 5 on one CPU and 4 on the other,
and the bound is 0. -/
theorem not_stealing_ends : ¬∀ w, (system { N := 3, M := 0 }).Reachable w →
    Calm { N := 3, M := 0 } w → StealingEnds { N := 3, M := 0 } w := by
  intro hall
  have hrun : (playAll (next { N := 3, M := 0 }) (start [processOf 7 5, processOf 8 4])
      (calmRun 2 1 1)).map (fun w => (decide (Calm { N := 3, M := 0 } w), Main.busier w.load,
        Main.diff w.load, (w.sub .one).readyQueue.map PCB.remainingTime)) =
      some (true, .one, 1, [5]) := by
    decide +kernel
  obtain ⟨w, hw, h⟩ := Option.map_eq_some_iff.mp hrun
  obtain ⟨hcalm, hbusy, hdiff, hq⟩ : _ ∧ _ ∧ _ ∧ _ := by simpa only [Prod.mk.injEq] using h
  have hcalm := of_decide_eq_true hcalm
  have hstart : (system { N := 3, M := 0 }).Reachable (start [processOf 7 5, processOf 8 4]) :=
    .init ⟨_, ⟨by decide, by decide, by decide⟩, rfl⟩
  have hends := hall w (hstart.playAll next_step hw) hcalm
  rw [hcalm.ends_iff_dom, Balance.dom_iff le_rfl hcalm.positive] at hends
  refine hends ⟨[], 5, [], ?_, ?_, ?_⟩
  · rw [hcalm.heavy, hbusy]
    exact hq
  · rw [hcalm.gap, hdiff]
    decide
  · rw [hcalm.gap, hdiff]
    decide

end World

end Dual

end CpuScheduler
