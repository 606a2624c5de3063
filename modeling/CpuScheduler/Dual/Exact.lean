import CpuScheduler.Dual.Dispatch
import CpuScheduler.Dual.FirstArrival

/-!
# What a steal moves

A process in the ready queue of a sub-scheduler has never run
(`CpuScheduler.Dual.Sub.Fresh`): it is what `createPCB` made of a message. So nothing is
lost when `steal_handler` turns it into a message again, which carries the runtime and not the
remaining time.

The load of a sub-scheduler (`CpuScheduler.Dual.Sub.weight`) counts its ready processes and
those that are still in its message queue, with their remaining times and that of the running
process. `check_threshold` reads the table of the loads, has a process moved, and writes what
it has read, corrected for the process. If what it has read were the loads, then no clamp
fires and the sums stay, and what it writes are the loads unless a process is dispatched or
executed in the meantime (`CpuScheduler.Dual.Weighed.exact_of_answered`), as long as the reply
that it takes out of the response queue is the reply to its command. It takes whatever comes
first, and a termination message may come first (`CpuScheduler.Dual.Weighed.not_exact`).
-/

namespace CpuScheduler

namespace Dual

variable {P : Params} {clk rem : ℤ} {c d : Cpu}

/-- What `createPCB` makes of a message survives the way through a reply and a new
message, but for the memory fields, which no sub-scheduler reads. -/
theorem createPCB_pcbToProcessData (pd : ProcessData) (t t' : ℤ) :
    createPCB { pcbToProcessData (createPCB pd) t with mtype := t' } =
      { createPCB pd with base := 0, limit := 0 } := rfl

/-- A process that has never run. -/
structure Unstarted (x : PCB) : Prop where
  pid : x.pid = -1
  startTime : x.startTime = -1
  lastStopped : x.lastStopped = -1
  waitingTime : x.waitingTime = 0
  remainingTime : x.remainingTime = x.runtime

theorem unstarted_createPCB (pd : ProcessData) : Unstarted (createPCB pd) :=
  ⟨rfl, rfl, rfl, rfl, rfl⟩

namespace Sub

variable {s s' : Sub}

/-! ### The ready processes -/

/-- Each ready process is what `createPCB` has made of a message. -/
def Fresh (s : Sub) : Prop := ∀ x ∈ s.readyQueue, ∃ pd, x = createPCB pd

theorem Fresh.moves (h : s.Fresh) (hs : s.Moves clk rem s') : s'.Fresh := by
  rcases hs.queue with ⟨b, pd, rfl⟩ | ⟨x, q, hq, rfl⟩ | ⟨⟨hr, -⟩, -⟩
  · intro x hx
    rcases Queue.mem_enqueue.mp hx with hx | rfl
    · exact h x hx
    · exact ⟨pd, rfl⟩
  · exact fun y hy => h y (hq ▸ List.mem_cons_of_mem x hy)
  · exact fun x hx => h x (hr ▸ hx)

theorem Fresh.readyToSteal (h : s.Fresh) : ∀ x ∈ s.readyToSteal, ∃ pd, x = createPCB pd := by
  intro x hx
  rcases List.mem_append.mp hx with hx | hx
  · exact h x hx
  · obtain ⟨pd, -, rfl⟩ := List.mem_map.mp hx
    exact ⟨pd, rfl⟩

/-! ### The load -/

/-- The message for a new process that has been taken out of the queue. -/
def inHand (s : Sub) : List ProcessData :=
  match s.pc with
  | .put _ pd => [pd]
  | _ => []

/-- The processes that have been sent and are not ready yet. -/
def inFlight (s : Sub) : List ProcessData :=
  s.inHand ++ s.msgq.filter fun pd => pd.mtype = 1

/-- **The load of a sub-scheduler.** -/
def weight (s : Sub) : Slot where
  count := s.readyQueue.length + s.inFlight.length
  totalRT := totalRemainingTime s.readyQueue + (s.inFlight.map ProcessData.runtime).sum +
    s.runningRemainingTime

/-- The part of it that waits to be dispatched. -/
def queued (s : Sub) : Slot where
  count := s.readyQueue.length + s.inFlight.length
  totalRT := totalRemainingTime s.readyQueue + (s.inFlight.map ProcessData.runtime).sum

/-- No process is dispatched, and the running one does not run. -/
def Calm (s s' : Sub) : Prop :=
  s'.dispatched = s.dispatched ∧ s'.runningRemainingTime = s.runningRemainingTime

instance (s s' : Sub) : Decidable (s.Calm s') := inferInstanceAs (Decidable (_ ∧ _))

theorem queued_of_eq (hr : s'.readyQueue = s.readyQueue) (hf : s'.inFlight = s.inFlight) :
    s'.queued = s.queued := by
  rw [queued, queued, hr, hf]

theorem weight_of_queued (h : s'.queued = s.queued)
    (hrun : s'.runningRemainingTime = s.runningRemainingTime) : s'.weight = s.weight := by
  obtain ⟨hcount, htotal⟩ := Slot.mk.inj h
  rw [weight, weight, hcount, htotal, hrun]

/-- Messages in flight become ready processes. -/
theorem queued_of_append {m : List ProcessData}
    (hr : s'.readyQueue = s.readyQueue ++ m.map createPCB)
    (hf : s.inFlight.Perm (m ++ s'.inFlight)) : s'.queued = s.queued := by
  have hlen := hf.length_eq
  have hsum := (hf.map ProcessData.runtime).sum_eq
  have hm : (m.map createPCB).map PCB.remainingTime = m.map ProcessData.runtime := by
    rw [List.map_map]
    rfl
  rw [List.length_append] at hlen
  rw [List.map_append, List.sum_append] at hsum
  rw [queued, queued, hr, hsum, hlen, totalRemainingTime, totalRemainingTime,
    List.length_append, List.length_map, List.map_append, List.sum_append, hm]
  congr 1
  · push_cast
    ring
  · ring

theorem inHand_of_pc {pc : SubPc} (hpc : s.pc = pc) (h : ({ s with pc := pc } : Sub).inHand = []) :
    s.inHand = [] := by
  subst hpc
  exact h

theorem inFlight_eq (h : s.inHand = []) (h' : s'.inHand = []) (hm : s'.msgq = s.msgq) :
    s'.inFlight = s.inFlight := by
  rw [inFlight, inFlight, h, h', hm]

/-- A message that is not one for a new process does not weigh anything. -/
theorem inFlight_drop {pd : ProcessData} {q : List ProcessData} (h : s.inHand = [])
    (h' : s'.inHand = []) (hq : s.msgq = pd :: q) (h1 : pd.mtype ≠ 1) (hm : s'.msgq = q) :
    s'.inFlight = s.inFlight := by
  rw [inFlight, inFlight, h, h', hm, hq, List.filter_cons_of_neg (by simpa using h1)]

/-- **What waits stays**, unless the first ready process is dispatched. -/
def Keeps (s s' : Sub) : Prop := s'.queued = s.queued ∨
  ∃ x q, s.readyQueue = x :: q ∧ s'.readyQueue = q ∧ s'.inFlight = s.inFlight ∧
    s'.dispatched = s.dispatched ++ [x.id]

theorem Moves.keeps (hs : s.Moves clk rem s') : s.Keeps s' := by
  cases hs with
  | @fetch b pd q hpc hq h1 =>
    refine Or.inl (queued_of_eq rfl ?_)
    rw [inFlight, inFlight, inHand_of_pc hpc rfl, hq, List.filter_cons_of_pos (by simpa using h1)]
    rfl
  | @put b pd hpc =>
    refine Or.inl (queued_of_append (m := [pd]) rfl (List.Perm.of_eq ?_))
    rw [inFlight, inHand, hpc]
    rfl
  | @drained b hpc hq =>
    exact Or.inl (queued_of_eq rfl
      (inFlight_eq (inHand_of_pc hpc rfl) (by cases b <;> rfl) rfl))
  | @last b pd q hpc hq h5 =>
    exact Or.inl (queued_of_eq rfl
      (inFlight_drop (inHand_of_pc hpc rfl) (by cases b <;> rfl) hq (by omega) rfl))
  | drop hpc hq h1 h5 =>
    exact Or.inl (queued_of_eq rfl
      (inFlight_drop (inHand_of_pc hpc rfl) (inHand_of_pc hpc rfl) hq h1 rfl))
  | @dequeue x q hpc hq =>
    exact Or.inr ⟨x, q, hq, rfl, inFlight_eq (inHand_of_pc hpc rfl) rfl rfl, rfl⟩
  | finish hpc hfin hs =>
    obtain ⟨x, l, p, -, -, rfl⟩ := finishLogic_eq_ok hs
    exact Or.inl (queued_of_eq rfl (inFlight_eq (inHand_of_pc hpc rfl) rfl rfl))
  | resume hpc =>
    obtain ⟨st, y, l, ch, hs, -⟩ := s.endStall_eq clk
    rw [hs]
    exact Or.inl (queued_of_eq rfl (inFlight_eq (inHand_of_pc hpc rfl) rfl rfl))
  | run hpc hs =>
    obtain ⟨x, y, l, ch, -, -, rfl⟩ := runProcess_eq_ok hs
    exact Or.inl (queued_of_eq rfl (inFlight_eq (inHand_of_pc hpc rfl) rfl rfl))
  | permit hpc =>
    obtain ⟨n, hs⟩ := s.permit_eq
    rw [hs]
    exact Or.inl (queued_of_eq rfl (inFlight_eq (inHand_of_pc hpc rfl) rfl rfl))
  | _ hpc =>
    exact Or.inl (queued_of_eq rfl (inFlight_eq (inHand_of_pc hpc rfl) rfl rfl))

/-- **A sub-scheduler that dispatches nothing keeps its load.** -/
theorem Keeps.weight_eq (h : s.Keeps s') (hcalm : s.Calm s') : s'.weight = s.weight := by
  rcases h with hq | ⟨x, q, -, -, -, hd⟩
  · exact weight_of_queued hq hcalm.2
  · exact absurd (congrArg List.length (hd.symm.trans hcalm.1)) (by simp)

/-- A sub-scheduler does not send itself a command. -/
theorem Moves.sigurg_eq (hs : s.Moves clk rem s') : s'.sigurg = s.sigurg := by
  cases hs with
  | finish hpc hfin hs =>
    obtain ⟨x, l, p, -, -, rfl⟩ := finishLogic_eq_ok hs
    rfl
  | resume hpc =>
    obtain ⟨st, y, l, ch, hs, -⟩ := s.endStall_eq clk
    rw [hs]
  | run hpc hs =>
    obtain ⟨x, y, l, ch, -, -, rfl⟩ := runProcess_eq_ok hs
    rfl
  | permit hpc =>
    obtain ⟨n, hs⟩ := s.permit_eq
    rw [hs]
  | _ => rfl

/-- What a handler takes out of the message queue. -/
theorem filter_news (q : List ProcessData) :
    (q.filter fun pd => pd.mtype = 1) = news q ++ (left q).filter fun pd => pd.mtype = 1 := by
  induction q with
  | nil => rfl
  | cons pd q ih =>
    rw [news, left]
    by_cases h5 : pd.mtype = 5
    · rw [if_pos h5, if_pos h5, List.filter_cons_of_neg (by simpa using fun h1 => by omega)]
      rfl
    · rw [if_neg h5, if_neg h5]
      by_cases h1 : pd.mtype = 1
      · rw [if_pos h1, List.filter_cons_of_pos (by simpa using h1), ih]
        rfl
      · rw [if_neg h1, List.filter_cons_of_neg (by simpa using h1), ih]

theorem inFlight_left (hpc : s'.pc = s.pc) (hm : s'.msgq = left s.msgq) :
    s.inFlight.Perm (news s.msgq ++ s'.inFlight) := by
  have hh : s'.inHand = s.inHand := by rw [inHand, inHand, hpc]
  rw [inFlight, inFlight, hh, hm, filter_news, ← List.append_assoc, ← List.append_assoc]
  exact List.perm_append_comm.append_right _

/-- `stall_sig` dispatches nothing. -/
theorem queued_stallSig (s : Sub) (clk : ℤ) : (s.stallSig clk).queued = s.queued := by
  obtain ⟨y, v, r, l, ch, hs, -⟩ := s.stallSig_eq clk
  refine queued_of_append (m := news s.msgq) (by rw [hs]; rfl) (inFlight_left ?_ ?_)
  · rw [hs]
  · rw [hs]

end Sub

/-- A slot without a process. -/
def Slot.minus (a : Slot) (runtime : ℤ) : Slot where
  count := a.count - 1
  totalRT := a.totalRT - runtime

/-- A slot with one more process. -/
def Slot.plus (a : Slot) (runtime : ℤ) : Slot where
  count := a.count + 1
  totalRT := a.totalRT + runtime

/-- A process of this runtime can be taken off the slot without a cut at 0. -/
def Slot.Has (a : Slot) (runtime : ℤ) : Prop := 0 < a.count ∧ 0 ≤ a.totalRT - runtime

/-- A slot that is not above another one. -/
def Slot.Below (a b : Slot) : Prop := a.count ≤ b.count ∧ a.totalRT ≤ b.totalRT

theorem Slot.Below.trans {a b c : Slot} (h : a.Below b) (h' : b.Below c) : a.Below c :=
  ⟨h.1.trans h'.1, h.2.trans h'.2⟩

theorem Slot.below_of_eq {a b : Slot} (h : a = b) : a.Below b := h ▸ ⟨le_rfl, le_rfl⟩

namespace Sub

variable {s s' : Sub}

/-- **What waits does not grow** by the moves of the sub-scheduler. -/
theorem Keeps.below (h : s.Keeps s') (hpos : ∀ x ∈ s.readyQueue, 0 ≤ x.remainingTime) :
    s'.queued.Below s.queued := by
  rcases h with hq | ⟨x, q, hq, hq', hf, -⟩
  · exact Slot.below_of_eq hq
  · have hx := hpos x (hq ▸ List.mem_cons_self)
    rw [queued, queued, hq, hq', hf]
    constructor
    · dsimp only
      rw [List.length_cons]
      omega
    · dsimp only
      rw [totalRemainingTime, totalRemainingTime, List.map_cons, List.sum_cons]
      omega

/-- **`steal_handler` takes one process off what waits**, or has none to give back. -/
theorem queued_stealHandler (h : s.Fresh) (clk : ℤ) :
    ((s.stealHandler clk).2.mtype = 12 ∧ (s.stealHandler clk).1.queued = s.queued) ∨
      ((s.stealHandler clk).2.mtype = 11 ∧
        (s.stealHandler clk).1.queued = s.queued.minus (s.stealHandler clk).2.runtime) := by
  -- all that is there has been received
  have hall : ({ s with readyQueue := s.readyToSteal, msgq := left s.msgq } : Sub).queued =
      s.queued := queued_of_append (m := news s.msgq) rfl (inFlight_left rfl rfl)
  rcases s.stealHandler_cases clk with ⟨hnil, v, r, hs⟩ | ⟨x, q, hq, v, r, hs⟩
  · rw [hs]
    refine Or.inl ⟨rfl, ?_⟩
    rw [hnil] at hall
    exact hall
  · rw [hs]
    refine Or.inr ⟨rfl, ?_⟩
    obtain ⟨pd, rfl⟩ := h.readyToSteal x (hq ▸ List.mem_append_right q List.mem_cons_self)
    rw [← hall, hq]
    simp only [queued, Slot.minus, totalRemainingTime, List.length_append, List.map_append,
      List.sum_append, List.length_singleton, List.map_cons, List.map_nil, List.sum_singleton,
      Slot.mk.injEq]
    constructor
    · push_cast
      change _ = (q.length : ℤ) + 1 + _ - 1
      ring_nf
      rfl
    · change _ = (q.map PCB.remainingTime).sum + pd.runtime + _ - pd.runtime
      ring_nf
      rfl

theorem stealHandler_running (s : Sub) (clk : ℤ) :
    (s.stealHandler clk).1.runningRemainingTime = s.runningRemainingTime := by
  rcases s.stealHandler_cases clk with ⟨-, v, r, hs⟩ | ⟨x, q, -, v, r, hs⟩ <;> rw [hs] <;> rfl

/-- The same for the load. -/
theorem weight_stealHandler (h : s.Fresh) (clk : ℤ) :
    ((s.stealHandler clk).2.mtype = 12 ∧ (s.stealHandler clk).1.weight = s.weight) ∨
      ((s.stealHandler clk).2.mtype = 11 ∧
        (s.stealHandler clk).1.weight = s.weight.minus (s.stealHandler clk).2.runtime) := by
  have hrun := s.stealHandler_running clk
  rcases queued_stealHandler h clk with ⟨h12, hq⟩ | ⟨h11, hq⟩
  · exact Or.inl ⟨h12, weight_of_queued hq hrun⟩
  · refine Or.inr ⟨h11, ?_⟩
    obtain ⟨hcount, htotal⟩ := Slot.mk.inj hq
    rw [weight, hcount, htotal, hrun, weight, Slot.minus, queued]
    simp only [Slot.mk.injEq, true_and]
    ring

end Sub

/-! ### A command and its reply -/

/-- The main scheduler has sent a command, or is about to, and has not published the loads. -/
def MainPc.stealing : MainPc → Bool
  | .steal .. | .await .. | .resend .. | .reflect .. => true
  | _ => false

/-- The main scheduler waits for the reply. -/
def MainPc.awaiting : MainPc → Bool
  | .await .. => true
  | _ => false

namespace World

variable {w w' : World} {e : Event}

/-- The loads are what the sub-schedulers have. -/
def Exact (w : World) (l : Load) : Prop := ∀ c, l c = (w.sub c).weight

instance (w : World) (l : Load) : Decidable (w.Exact l) :=
  inferInstanceAs (Decidable (∀ c, l c = (w.sub c).weight))

/-- No command is on its way, nor a reply. -/
structure Quiet (w : World) : Prop where
  signal : ∀ c, (w.sub c).sigurg = false
  resp : replies w.resp = []

/-- The loads without the process that has been given back. -/
def owing (read : Load) (b : Cpu) (runtime : ℤ) : Load :=
  Function.update read b ((read b).minus runtime)

/-- The loads when it has been sent on. -/
def moved (read : Load) (b : Cpu) (runtime : ℤ) : Load := fun c =>
  if c = b then (read c).minus runtime else (read c).plus runtime

/-- **A command and its reply.** While the main scheduler waits, the command is on its way or
the reply is, and nothing else is in the response queue but termination messages. The loads
that were read are related to the loads that there are, provided `exact`. -/
def Balanced (w : World) (exact : Prop) : Prop :=
  match w.main.pc with
  | .steal _ read => w.Quiet ∧ (exact → w.Exact read)
  | .await b read => (w.sub b.other).sigurg = false ∧
      (((w.sub b).sigurg = true ∧ replies w.resp = [] ∧ (exact → w.Exact read)) ∨
        ((w.sub b).sigurg = false ∧ ∃ pd, replies w.resp = [pd] ∧
          (pd.mtype = 12 ∨ (pd.mtype = 11 ∧ (exact → w.Exact (owing read b pd.runtime))))))
  | .resend b read pd => w.Quiet ∧ (exact → w.Exact (owing read b pd.runtime))
  | .reflect b read runtime => w.Quiet ∧ (exact → w.Exact (moved read b runtime))
  | _ => w.Quiet

/-- What the other parties do. -/
theorem Steps.others (h : Steps P w e w') (he : e ≠ .main) (hne : ∀ c, e ≠ .steal c) :
    w'.main = w.main ∧ replies w'.resp = replies w.resp ∧
      ∀ c, (w'.sub c).sigurg = (w.sub c).sigurg ∧ (w.sub c).Keeps (w'.sub c) := by
  have hset : ∀ {c : Cpu} {s : Sub}, s.sigurg = (w.sub c).sigurg → (w.sub c).Keeps s → ∀ d,
      ((w.setSub c s).sub d).sigurg = (w.sub d).sigurg ∧
        (w.sub d).Keeps ((w.setSub c s).sub d) := by
    intro c s hsig hw d
    by_cases hd : d = c
    · subst hd
      rw [setSub_sub_self]
      exact ⟨hsig, hw⟩
    · rw [setSub_sub_of_ne _ _ hd]
      exact ⟨rfl, Or.inl rfl⟩
  cases h with
  | main h => exact absurd rfl he
  | steal hsig hpc => exact absurd rfl (hne _)
  | @sub c _ h =>
    cases h with
    | own hm => exact ⟨rfl, rfl, hset hm.sigurg_eq hm.keeps⟩
    | pass hpc h0 hgate =>
      exact ⟨rfl, rfl, hset rfl (Or.inl (Sub.queued_of_eq rfl
        (Sub.inFlight_eq (Sub.inHand_of_pc hpc rfl) rfl rfl)))⟩
    | @write k n t hpc =>
      exact ⟨rfl, rfl, hset rfl (Or.inl (Sub.queued_of_eq rfl
        (Sub.inFlight_eq (Sub.inHand_of_pc hpc rfl) (by cases k <;> rfl) rfl)))⟩
    | ack hpc =>
      refine ⟨rfl, ?_, hset rfl (Or.inl (Sub.queued_of_eq rfl
        (Sub.inFlight_eq (Sub.inHand_of_pc hpc rfl) rfl rfl)))⟩
      exact (List.filter_append ..).trans (List.append_nil _)
  | @stall c hsig hpc =>
    refine ⟨rfl, rfl, hset ?_ (Or.inl ((w.sub c).queued_stallSig w.clock))⟩
    obtain ⟨y, v, r, l, ch, hs, -⟩ := (w.sub c).stallSig_eq w.clock
    rw [hs]
  | child hs =>
    obtain ⟨fin, sem, rt, ch, rfl⟩ := Sub.childStep_eq_some hs
    exact ⟨rfl, rfl, hset rfl (Or.inl rfl)⟩
  | _ => exact ⟨rfl, rfl, fun _ => ⟨rfl, Or.inl rfl⟩⟩

theorem Quiet.of_eq (h : w.Quiet) (hs : ∀ c, (w'.sub c).sigurg = (w.sub c).sigurg)
    (hr : replies w'.resp = replies w.resp) : w'.Quiet :=
  ⟨fun c => (hs c).trans (h.signal c), hr.trans h.resp⟩

theorem Exact.of_eq {l : Load} (h : w.Exact l) (hw : ∀ c, (w'.sub c).weight = (w.sub c).weight) :
    w'.Exact l := fun c => (h c).trans (hw c).symm

variable {p p' : Prop}

/-- A step of somebody else, while nothing is dispatched and no process runs. -/
theorem Balanced.of_eq (h : w.Balanced p) (hm : w'.main = w.main)
    (hr : replies w'.resp = replies w.resp) (hs : ∀ c, (w'.sub c).sigurg = (w.sub c).sigurg)
    (hp : p' → p ∧ ∀ c, (w'.sub c).weight = (w.sub c).weight) : w'.Balanced p' := by
  have hexact : ∀ {l : Load}, (p → w.Exact l) → p' → w'.Exact l := fun h hp' =>
    (h (hp hp').1).of_eq (hp hp').2
  rw [Balanced] at h ⊢
  rw [hm]
  split at h
  · exact ⟨h.1.of_eq hs hr, hexact h.2⟩
  · next b read hpc =>
    refine ⟨(hs _).trans h.1, ?_⟩
    rw [hs b, hr]
    rcases h.2 with ⟨hsig, hnone, hex⟩ | ⟨hsig, pd, hpd, h12 | ⟨h11, hex⟩⟩
    · exact Or.inl ⟨hsig, hnone, hexact hex⟩
    · exact Or.inr ⟨hsig, pd, hpd, Or.inl h12⟩
    · exact Or.inr ⟨hsig, pd, hpd, Or.inr ⟨h11, hexact hex⟩⟩
  · exact ⟨h.1.of_eq hs hr, hexact h.2⟩
  · exact ⟨h.1.of_eq hs hr, hexact h.2⟩
  · exact h.of_eq hs hr

/-- No command comes but while the main scheduler waits for the reply. -/
theorem Balanced.of_sigurg (h : w.Balanced p) (hsig : (w.sub c).sigurg = true) :
    ∃ read, w.main.pc = .await c read ∧ (w.sub c.other).sigurg = false ∧ replies w.resp = [] ∧
      (p → w.Exact read) := by
  have hno : ¬w.Quiet := fun hq => nomatch hsig.symm.trans (hq.signal c)
  rw [Balanced] at h
  split at h
  · exact absurd h.1 hno
  · next b read hpc =>
    obtain ⟨hother, h⟩ := h
    rcases Cpu.eq_or b c with rfl | rfl
    · rcases h with ⟨-, hnone, hex⟩ | ⟨hsig', -⟩
      · exact ⟨read, hpc, hother, hnone, hex⟩
      · exact nomatch hsig.symm.trans hsig'
    · exact nomatch hsig.symm.trans hother
  · exact absurd h.1 hno
  · exact absurd h.1 hno
  · exact absurd h hno

/-- **The handler replies.** -/
theorem Balanced.steal (h : w.Balanced p) (hfresh : (w.sub c).Fresh)
    (hsig : (w.sub c).sigurg = true) (hp : p' → p) : (w.steal c).Balanced p' := by
  obtain ⟨read, hpc, hother, hnone, hex⟩ := h.of_sigurg hsig
  have hself : (w.steal c).sub c = ((w.sub c).stealHandler w.clock).1 := setSub_sub_self ..
  have hrest : ∀ d, d ≠ c → (w.steal c).sub d = w.sub d := fun d hd => setSub_sub_of_ne _ _ hd
  have hoff : ((w.sub c).stealHandler w.clock).1.sigurg = false := by
    rcases (w.sub c).stealHandler_cases w.clock with ⟨-, v, r, hs⟩ | ⟨x, q, -, v, r, hs⟩ <;> rw [hs]
  have hresp : (w.steal c).resp = w.resp ++ [((w.sub c).stealHandler w.clock).2] := rfl
  have hreply : ∀ {t : ℤ}, ((w.sub c).stealHandler w.clock).2.mtype = t → t ≠ 6 →
      replies (w.steal c).resp = [((w.sub c).stealHandler w.clock).2] := by
    intro t ht h6
    rw [hresp, replies, List.filter_append, ← replies, hnone, List.nil_append,
      List.filter_cons_of_pos (by simpa [ht] using h6), List.filter_nil]
  have hpc' : (w.steal c).main.pc = .await c read := hpc
  rw [Balanced, hpc']
  refine ⟨by rw [hrest _ c.other_ne]; exact hother, Or.inr ⟨by rw [hself]; exact hoff, ?_⟩⟩
  rcases Sub.weight_stealHandler hfresh w.clock with ⟨h12, -⟩ | ⟨h11, hw⟩
  · exact ⟨_, hreply h12 (by decide), Or.inl h12⟩
  · refine ⟨_, hreply h11 (by decide), Or.inr ⟨h11, fun hp' d => ?_⟩⟩
    have hread := hex (hp hp')
    by_cases hd : d = c
    · subst hd
      rw [owing, Function.update_self, hself, hw, hread d]
    · rw [owing, Function.update_of_ne hd, hrest d hd]
      exact hread d

theorem balanced_iff (h : w.main.pc.stealing = false) : w.Balanced p ↔ w.Quiet := by
  rw [Balanced]
  split <;> first | exact Iff.rfl | simp only [MainPc.stealing, ‹w.main.pc = _›, reduceCtorEq] at h

theorem behindReceive_stealing (now : ℤ) : (Main.behindReceive now).stealing = false := by
  rw [Main.behindReceive]
  split_ifs <;> rfl

theorem replies_replies (l : List ProcessData) : replies (replies l) = replies l := by
  rw [replies, replies, List.filter_filter]
  simp only [Bool.and_self]

theorem sendProcessMsg_sigurg (w : World) (b : Cpu) (pd : ProcessData) (t : ℤ) (d : Cpu) :
    ((w.sendProcessMsg b pd t).sub d).sigurg = (w.sub d).sigurg := by
  rw [sendProcessMsg]
  by_cases hd : d = b
  · subst hd
    rw [setSub_sub_self]
  · rw [setSub_sub_of_ne _ _ hd]

/-- A process that has been sent adds to the load. -/
theorem weight_sendProcessMsg (w : World) (b : Cpu) (pd : ProcessData) :
    ((w.sendProcessMsg b pd 1).sub b).weight = ((w.sub b).weight).plus pd.runtime := by
  have hflight : ((w.sendProcessMsg b pd 1).sub b).inFlight =
      (w.sub b).inFlight ++ [{ pd with mtype := 1 }] := by
    rw [sendProcessMsg, setSub_sub_self, Sub.inFlight, Sub.inFlight, List.append_assoc]
    refine congrArg ((w.sub b).inHand ++ ·) ?_
    rw [List.filter_append]
    rfl
  have hready : ((w.sendProcessMsg b pd 1).sub b).readyQueue = (w.sub b).readyQueue ∧
      ((w.sendProcessMsg b pd 1).sub b).runningRemainingTime = (w.sub b).runningRemainingTime := by
    rw [sendProcessMsg, setSub_sub_self]
    exact ⟨rfl, rfl⟩
  rw [Sub.weight, Sub.weight, hflight, hready.1, hready.2, Slot.plus, List.length_append,
    List.length_singleton, List.map_append, List.sum_append]
  simp only [List.map_cons, List.map_nil, List.sum_singleton, Slot.mk.injEq]
  constructor
  · push_cast
    ring
  · ring

/-- **The reply to the command comes first**: the message that the main scheduler takes for it
is no termination message. -/
def Answered (w : World) : Event → Prop
  | .main => w.main.pc.awaiting = true → ∀ pd ∈ w.resp.head?, pd.mtype ≠ 6
  | _ => True

/-- While the main scheduler waits, the first message that is not a termination message is the
reply, and there is no other. -/
theorem Balanced.await (h : w.Balanced p) {b : Cpu} {read : Load} {resp : ProcessData}
    {rest : List ProcessData} (hpc : w.main.pc = .await b read) (hrcv : w.resp = resp :: rest)
    (h6 : resp.mtype ≠ 6) : (∀ c, (w.sub c).sigurg = false) ∧ replies rest = [] ∧
      (resp.mtype = 12 ∨ (resp.mtype = 11 ∧ (p → w.Exact (owing read b resp.runtime)))) := by
  rw [Balanced, hpc] at h
  have hfront : replies w.resp = resp :: replies rest := by
    rw [hrcv]
    exact List.filter_cons_of_pos (by simpa using h6)
  obtain ⟨hother, ⟨-, hnone, -⟩ | ⟨hsig, pd, hpd, hreply⟩⟩ := h
  · exact absurd (hfront.symm.trans hnone) (List.cons_ne_nil _ _)
  · obtain ⟨rfl, hrest⟩ := List.cons.inj (hfront.symm.trans hpd)
    refine ⟨fun c => ?_, hrest, hreply⟩
    rcases Cpu.eq_or b c with rfl | rfl
    · exact hsig
    · exact hother

/-- **The main scheduler moves.** -/
theorem Balanced.mains (h : w.Balanced p) (hm : Mains P w w') (hans : w.Answered .main)
    (hload : w.main.pc = .threshold → p' → w.Exact w.load)
    (hp : w.main.pc ≠ .threshold → p' → p) : w'.Balanced p' := by
  have hquiet : ∀ {pc}, w.main.pc = pc → pc.stealing = false → w.Quiet := fun hpc hs =>
    (balanced_iff (hpc ▸ hs)).mp h
  have hplain : w'.main.pc.stealing = false → w'.Quiet → w'.Balanced p' := fun hs hq =>
    (balanced_iff hs).mpr hq
  cases hm with
  | spin hpc hgo hold =>
    exact hplain (by change w.main.pc.stealing = false; rw [hpc]; rfl)
      ((hquiet hpc rfl).of_eq (fun _ => rfl) (replies_replies w.resp))
  | begin hpc hgo hnew =>
    exact hplain rfl ((hquiet hpc rfl).of_eq (fun _ => rfl) (replies_replies w.resp))
  | shut hpc =>
    refine hplain ?_ ((hquiet hpc rfl).of_eq (fun _ => rfl) rfl)
    change (if w.main.receivingProcesses then MainPc.receive else _).stealing = false
    split_ifs
    · rfl
    · exact behindReceive_stealing _
  | arrive hpc hrcv h1 =>
    exact hplain (by change w.main.pc.stealing = false; rw [hpc]; rfl)
      ((hquiet hpc rfl).of_eq (fun _ => rfl) rfl)
  | sync hpc hrcv h2 hnew =>
    exact hplain (behindReceive_stealing _) ((hquiet hpc rfl).of_eq (fun _ => rfl) rfl)
  | last hpc hrcv h5 =>
    exact hplain (behindReceive_stealing _) ((hquiet hpc rfl).of_eq (fun _ => rfl) rfl)
  | drop hpc hrcv h1 h5 h2 =>
    exact hplain (by change w.main.pc.stealing = false; rw [hpc]; rfl)
      ((hquiet hpc rfl).of_eq (fun _ => rfl) rfl)
  | route hpc | term₁ hpc | term₂ hpc =>
    exact hplain rfl ((hquiet hpc rfl).of_eq (fun _ => sendProcessMsg_sigurg w _ _ _ _) rfl)
  | above hpc hM =>
    exact ⟨(hquiet hpc rfl).of_eq (fun _ => rfl) rfl, hload hpc⟩
  | @steal b read hpc =>
    rw [Balanced, hpc] at h
    refine ⟨?_, Or.inl ⟨?_, h.1.resp, fun hp' d => ?_⟩⟩
    · change ((w.setSub b _).sub b.other).sigurg = false
      rw [setSub_sub_of_ne _ _ b.other_ne]
      exact h.1.signal _
    · change ((w.setSub b _).sub b).sigurg = true
      rw [setSub_sub_self]
    · change read d = ((w.setSub b _).sub d).weight
      have hread := h.2 (hp (by rw [hpc]; exact (fun he => nomatch he)) hp') d
      by_cases hd : d = b
      · subst hd
        rw [setSub_sub_self]
        exact hread
      · rw [setSub_sub_of_ne _ _ hd]
        exact hread
  | @refused b read resp rest hpc hrcv h12 =>
    obtain ⟨hsig, hrest, -⟩ := h.await hpc hrcv (by rw [h12]; decide)
    exact hplain rfl ⟨hsig, hrest⟩
  | @reply b read resp rest hpc hrcv h12 =>
    have h6 : resp.mtype ≠ 6 := hans (by rw [hpc]; rfl) resp (by rw [hrcv]; rfl)
    obtain ⟨hsig, hrest, hreply⟩ := h.await hpc hrcv h6
    refine ⟨⟨hsig, hrest⟩, fun hp' => ?_⟩
    exact (hreply.resolve_left h12).2 (hp (by rw [hpc]; exact (fun he => nomatch he)) hp')
  | @resend b read resp hpc =>
    rw [Balanced, hpc] at h
    refine ⟨h.1.of_eq (fun _ => sendProcessMsg_sigurg w _ _ _ _) rfl, fun hp' d => ?_⟩
    have howe := h.2 (hp (by rw [hpc]; exact (fun he => nomatch he)) hp')
    change moved read b resp.runtime d = ((w.sendProcessMsg b.other resp 1).sub d).weight
    rcases Cpu.eq_or b d with rfl | rfl
    · have hd := howe d
      rw [owing, Function.update_self] at hd
      rw [moved, if_pos rfl, hd, sendProcessMsg, setSub_sub_of_ne _ _ d.other_ne.symm]
    · have hd := howe b.other
      rw [owing, Function.update_of_ne b.other_ne] at hd
      rw [moved, if_neg b.other_ne, hd, weight_sendProcessMsg]
  | @reflect b read runtime hpc =>
    rw [Balanced, hpc] at h
    exact hplain rfl (h.1.of_eq (fun _ => rfl) rfl)
  | @bottom pc hpc hterm =>
    refine hplain ?_ ((hquiet hpc rfl).of_eq (fun _ => rfl) rfl)
    rcases hterm with ⟨-, -, rfl⟩ | ⟨-, rfl⟩ <;> rfl
  | leave hpc | nothing hpc | load hpc | routed hpc | publish hpc | crash hpc | check hpc
  | pass hpc | below hpc | stall hpc | waitStart hpc | waited hpc | opening hpc | done hpc =>
    exact hplain rfl ((hquiet hpc rfl).of_eq (fun _ => rfl) rfl)

/-! ### What the sub-schedulers have -/

theorem reachable_fresh (h : (system P).Reachable w) : ∀ c, (w.sub c).Fresh := by
  refine h.invariant (P := fun w => ∀ c, (w.sub c).Fresh) ?_ ?_
  · rintro _ ⟨l, -, rfl⟩ c
    exact List.forall_mem_nil _
  · rintro w w' hw ⟨e, h⟩ c
    have hh := (next_cases h).happens c
    generalize w'.sub c = s at hh ⊢
    cases hh with
    | reached hs =>
      obtain ⟨q, u, v, rfl⟩ := hs
      exact hw c
    | own hs => exact (hw c).moves hs
    | steal hsig hpc =>
      have hready := (hw c).readyToSteal
      rcases (w.sub c).stealHandler_cases w.clock with ⟨-, v, r, hs⟩ | ⟨x, q, hq, v, r, hs⟩
      · rw [hs]
        exact List.forall_mem_nil _
      · rw [hs]
        exact fun y hy => hready y (hq ▸ List.mem_append_left _ hy)
    | stall hsig hpc =>
      obtain ⟨y, v, r, l, ch, hs, -⟩ := (w.sub c).stallSig_eq w.clock
      rw [hs]
      exact (hw c).readyToSteal
    | child hs =>
      obtain ⟨fin, sem, rt, ch, rfl⟩ := Sub.childStep_eq_some hs
      exact hw c
    | _ => exact hw c

/-- A job with a runtime. -/
def Lasting (j : Job) : Prop := 0 ≤ j.2.2.1

theorem reachable_lasting (h : (system P).Reachable w) : w.Carried Lasting := by
  refine h.invariant ?_ ?_
  · rintro _ ⟨l, hl, rfl⟩
    exact start_carried fun pd hpd => (hl.runtime pd hpd).le
  · rintro w w' hw ⟨e, h⟩
    exact hw.step le_rfl (next_cases h)

/-- A ready process has its runtime left. -/
theorem remainingTime_nonneg (hf : (w.sub c).Fresh) (hl : (w.sub c).Carries Lasting) :
    ∀ x ∈ (w.sub c).readyQueue, 0 ≤ x.remainingTime := by
  intro x hx
  obtain ⟨pd, rfl⟩ := hf x hx
  exact hl.ready _ hx

/-- What waits in a sub-scheduler is not negative, -/
theorem queued_nonneg (hf : (w.sub c).Fresh) (hl : (w.sub c).Carries Lasting) :
    0 ≤ (w.sub c).queued.count ∧ 0 ≤ (w.sub c).queued.totalRT := by
  have hready : 0 ≤ totalRemainingTime (w.sub c).readyQueue := by
    refine List.sum_nonneg fun t ht => ?_
    obtain ⟨x, hx, rfl⟩ := List.mem_map.mp ht
    exact remainingTime_nonneg hf hl x hx
  have hflight : 0 ≤ ((w.sub c).inFlight.map ProcessData.runtime).sum := by
    refine List.sum_nonneg fun t ht => ?_
    obtain ⟨pd, hpd, rfl⟩ := List.mem_map.mp ht
    rcases List.mem_append.mp hpd with hpd | hpd
    · rw [Sub.inHand] at hpd
      split at hpd
      · next b pd' hpc =>
        obtain rfl := List.mem_singleton.mp hpd
        exact hl.fetched b _ hpc
      · exact nomatch hpd
    · exact hl.msgq pd (List.mem_of_mem_filter hpd) (by simpa using List.of_mem_filter hpd)
  refine ⟨?_, add_nonneg hready hflight⟩
  rw [Sub.queued]
  dsimp only
  omega

/-- and the running process only adds to it. -/
theorem queued_below_weight (s : Sub) : s.queued.Below s.weight := by
  have hrun : 0 ≤ s.runningRemainingTime := by
    rw [Sub.runningRemainingTime]
    split_ifs
    · exact le_max_right _ _
    · exact le_rfl
  refine ⟨le_rfl, ?_⟩
  rw [Sub.queued, Sub.weight]
  dsimp only
  omega

/-! ### What was read, while processes are dispatched -/

/-- **The process that is given back is among those that were read**, if they were `exact`. While
the command is on its way, no more waits than was read, whatever is dispatched. -/
structure Covered (w : World) (exact : Prop) : Prop where
  waits : ∀ b read, (w.main.pc = .steal b read ∨
    (w.main.pc = .await b read ∧ (w.sub b).sigurg = true)) → exact →
      (w.sub b).queued.Below (read b)
  reply : ∀ b read, w.main.pc = .await b read → ∀ pd ∈ replies w.resp, pd.mtype = 11 → exact →
    (read b).Has pd.runtime
  resend : ∀ b read pd, w.main.pc = .resend b read pd → exact → (read b).Has pd.runtime
  reflect : ∀ b read runtime, w.main.pc = .reflect b read runtime → exact → (read b).Has runtime

variable {p p' q : Prop}

theorem covered_of_stealing (h : w.main.pc.stealing = false) : w.Covered p where
  waits b read hpc := by
    rcases hpc with hpc | ⟨hpc, -⟩ <;> rw [hpc] at h <;> cases h
  reply b read hpc := by
    rw [hpc] at h
    cases h
  resend b read pd hpc := by
    rw [hpc] at h
    cases h
  reflect b read runtime hpc := by
    rw [hpc] at h
    cases h

/-- A step of somebody else. -/
theorem Covered.of_below (h : w.Covered p) (hm : w'.main = w.main)
    (hr : replies w'.resp = replies w.resp) (hs : ∀ c, (w'.sub c).sigurg = (w.sub c).sigurg)
    (hq : ∀ c, (w'.sub c).queued.Below (w.sub c).queued) (hp : p' → p) : w'.Covered p' := by
  refine ⟨fun b read hpc he => ?_, fun b read hpc pd hpd h11 he => ?_, fun b read pd hpc he => ?_,
    fun b read runtime hpc he => ?_⟩
  · rw [hm, hs b] at hpc
    exact (hq b).trans (h.waits b read hpc (hp he))
  · rw [hm] at hpc
    rw [hr] at hpd
    exact h.reply b read hpc pd hpd h11 (hp he)
  · rw [hm] at hpc
    exact h.resend b read pd hpc (hp he)
  · rw [hm] at hpc
    exact h.reflect b read runtime hpc (hp he)

/-- **The handler replies**: the process was waiting. -/
theorem Covered.steal (h : w.Covered p) (hb : w.Balanced q) (hfresh : (w.sub c).Fresh)
    (hsig : (w.sub c).sigurg = true)
    (hleft : 0 ≤ ((w.steal c).sub c).queued.count ∧ 0 ≤ ((w.steal c).sub c).queued.totalRT)
    (hp : p' → p) : (w.steal c).Covered p' := by
  obtain ⟨read, hpc, -, hnone, -⟩ := hb.of_sigurg hsig
  have hself : (w.steal c).sub c = ((w.sub c).stealHandler w.clock).1 := setSub_sub_self ..
  have hoff : ((w.steal c).sub c).sigurg = false := by
    rw [hself]
    rcases (w.sub c).stealHandler_cases w.clock with ⟨-, v, r, hs⟩ | ⟨x, q, -, v, r, hs⟩ <;> rw [hs]
  have hpc' : (w.steal c).main.pc = .await c read := hpc
  refine ⟨fun b read' hb' he => ?_, fun b read' hb' pd hpd h11 he => ?_, fun b read' pd hb' => ?_,
    fun b read' runtime hb' => ?_⟩
  · rcases hb' with hb' | ⟨hb', hon⟩
    · cases hpc'.symm.trans hb'
    · obtain ⟨rfl, rfl⟩ := MainPc.await.inj (hpc'.symm.trans hb')
      exact absurd (hoff.symm.trans hon) (by simp)
  · obtain ⟨rfl, rfl⟩ := MainPc.await.inj (hpc'.symm.trans hb')
    -- the only reply is the one of the handler
    have hresp : replies (w.steal c).resp =
        replies w.resp ++ replies [((w.sub c).stealHandler w.clock).2] := List.filter_append ..
    rw [hresp, hnone, List.nil_append] at hpd
    obtain rfl := List.mem_singleton.mp (List.mem_of_mem_filter hpd)
    rcases Sub.queued_stealHandler hfresh w.clock with ⟨h12, -⟩ | ⟨-, hq⟩
    · omega
    · rw [hself, hq] at hleft
      obtain ⟨hcount, htotal⟩ := h.waits c read (Or.inr ⟨hpc, hsig⟩) (hp he)
      have hone : 0 ≤ (w.sub c).queued.count - 1 := hleft.1
      have hrest : 0 ≤ (w.sub c).queued.totalRT -
        ((w.sub c).stealHandler w.clock).2.runtime := hleft.2
      exact ⟨by omega, by omega⟩
  · cases hpc'.symm.trans hb'
  · cases hpc'.symm.trans hb'

/-- **The main scheduler moves.** -/
theorem Covered.mains (h : w.Covered p) (hb : w.Balanced q) (hm : Mains P w w')
    (hans : w.Answered .main) (hload : w.main.pc = .threshold → p' → w.Exact w.load)
    (hp : w.main.pc ≠ .threshold → p' → p) : w'.Covered p' := by
  have hold : w.main.pc.stealing = false → w'.main.pc = w.main.pc → w'.Covered p' := fun hs hpc =>
    covered_of_stealing (hpc ▸ hs)
  cases hm with
  | spin hpc | arrive hpc | drop hpc => exact hold (by rw [hpc]; rfl) rfl
  | sync hpc | last hpc => exact covered_of_stealing (behindReceive_stealing _)
  | shut hpc =>
    refine covered_of_stealing ?_
    change (if w.main.receivingProcesses then MainPc.receive else _).stealing = false
    split_ifs
    · rfl
    · exact behindReceive_stealing _
  | bottom hpc hterm =>
    refine covered_of_stealing ?_
    rcases hterm with ⟨-, -, rfl⟩ | ⟨-, rfl⟩ <;> rfl
  | above hpc hM =>
    refine ⟨fun b read hpc' he => ?_, fun b read hpc' => ?_, fun b read pd hpc' => ?_,
      fun b read runtime hpc' => ?_⟩
    · rcases hpc' with hpc' | ⟨hpc', -⟩
      · obtain ⟨rfl, rfl⟩ := MainPc.steal.inj hpc'
        rw [hload hpc he]
        exact queued_below_weight _
      · cases hpc'
    all_goals cases hpc'
  | @steal b read hpc =>
    rw [Balanced, hpc] at hb
    refine ⟨fun b' read' hpc' he => ?_, fun b' read' hpc' pd hpd => ?_, fun b' read' pd hpc' => ?_,
      fun b' read' runtime hpc' => ?_⟩
    · rcases hpc' with hpc' | ⟨hpc', -⟩
      · cases hpc'
      · obtain ⟨rfl, rfl⟩ := MainPc.await.inj hpc'
        have hq : ((w.setSub b { w.sub b with sigurg := true }).sub b).queued =
            (w.sub b).queued := by
          rw [setSub_sub_self]
          rfl
        exact (Slot.below_of_eq hq).trans
          (h.waits b read (Or.inl hpc) (hp (by rw [hpc]; simp) he))
    · have hnone : replies w.resp = [] := hb.1.resp
      exact absurd (hnone ▸ hpd) List.not_mem_nil
    all_goals cases hpc'
  | @reply b read resp rest hpc hrcv h12 =>
    have h6 : resp.mtype ≠ 6 := hans (by rw [hpc]; rfl) resp (by rw [hrcv]; rfl)
    have h11 := ((hb.await hpc hrcv h6).2.2.resolve_left h12).1
    have hmem : resp ∈ replies w.resp := by
      rw [hrcv]
      exact List.mem_filter.mpr ⟨List.mem_cons_self, by simpa using h6⟩
    refine ⟨fun b' read' hpc' => ?_, fun b' read' hpc' => ?_, fun b' read' pd hpc' he => ?_,
      fun b' read' runtime hpc' => ?_⟩
    · rcases hpc' with hpc' | ⟨hpc', -⟩ <;> cases hpc'
    · cases hpc'
    · obtain ⟨rfl, rfl, rfl⟩ := MainPc.resend.inj hpc'
      exact h.reply b read hpc resp hmem h11 (hp (by rw [hpc]; simp) he)
    · cases hpc'
  | @resend b read resp hpc =>
    refine ⟨fun b' read' hpc' => ?_, fun b' read' hpc' => ?_, fun b' read' pd hpc' => ?_,
      fun b' read' runtime hpc' he => ?_⟩
    · rcases hpc' with hpc' | ⟨hpc', -⟩ <;> cases hpc'
    · cases hpc'
    · cases hpc'
    · obtain ⟨rfl, rfl, rfl⟩ := MainPc.reflect.inj hpc'
      exact h.resend b read resp hpc (hp (by rw [hpc]; simp) he)
  | _ => exact covered_of_stealing rfl

end World

/-! ### Runs -/

/-- A state, whether the loads that the main scheduler read last were exact, and whether since
then nothing has been dispatched and no process has run. -/
structure Weighed where
  world : World
  exact : Bool
  calm : Bool

namespace Weighed

open Dual.World TransitionSystem

variable {a : Weighed} {w : World} {e : Event}

/-- A step and its trace in the history. -/
def record (a : Weighed) (e : Event) (w : World) : Weighed :=
  match e, a.world.main.pc with
  | .main, .threshold =>
    { world := w, exact := decide (a.world.Exact a.world.load), calm := true }
  | _, _ =>
    { world := w, exact := a.exact, calm := a.calm && decide (∀ c, (a.world.sub c).Calm (w.sub c)) }

/-- The runs all of whose steps meet a condition. -/
def systemIf (P : Params) (C : World → Event → Prop) : TransitionSystem Weighed where
  init a := (World.system P).init a.world ∧ a.exact = false
  step a a' := ∃ e w, World.next P a.world e = some w ∧ C a.world e ∧ a' = a.record e w

/-- **What the main scheduler publishes after a steal**, where the loads that it read were exact:
the sums are as before, and neither of them is cut off at 0. Where since then nothing has been
dispatched and no process has run, the loads that it publishes are exact. -/
def Conserving (a : Weighed) : Prop := a.exact = true → ∀ b read runtime,
  a.world.main.pc = .reflect b read runtime →
    (a.calm = true → a.world.Exact (Main.reflect read b runtime)) ∧
    (Main.reflect read b runtime .one).count + (Main.reflect read b runtime .two).count =
      (read .one).count + (read .two).count ∧
    (Main.reflect read b runtime .one).totalRT + (Main.reflect read b runtime .two).totalRT =
      (read .one).totalRT + (read .two).totalRT ∧
    0 < (read b).count ∧ 0 ≤ (read b).totalRT - runtime

theorem record_world (a : Weighed) (e : Event) (w : World) : (a.record e w).world = w := by
  unfold record
  split <;> rfl

/-- Outside the comparison of the loads, -/
theorem record_exact (h : ¬(e = .main ∧ a.world.main.pc = .threshold)) :
    (a.record e w).exact = a.exact ∧
      ((a.record e w).calm = true → a.calm = true ∧ ∀ c, (a.world.sub c).Calm (w.sub c)) := by
  unfold record
  split
  · next hpc => exact absurd ⟨rfl, hpc⟩ h
  · refine ⟨rfl, fun he => ?_⟩
    obtain ⟨he, hc⟩ := Bool.and_eq_true_iff.mp he
    exact ⟨he, of_decide_eq_true hc⟩

/-- and at it. -/
theorem record_threshold (h : a.world.main.pc = .threshold) :
    (a.record .main w).exact = true → a.world.Exact a.world.load := by
  unfold record
  rw [h]
  exact of_decide_eq_true

theorem reachable_world {C : World → Event → Prop} (h : (systemIf P C).Reachable a) :
    (World.system P).Reachable a.world := by
  have hinit : ∀ a, (systemIf P C).init a → (World.system P).init a.world := fun a ha => ha.1
  refine h.map hinit ?_
  rintro a _ - ⟨e, w, h, -, rfl⟩
  rw [record_world]
  exact Or.inl ⟨e, h⟩

/-- **The invariant over a run** in which each command gets its reply. -/
theorem reachable_balanced (h : (systemIf P Answered).Reachable a) :
    a.world.Balanced (a.exact = true ∧ a.calm = true) := by
  refine h.invariant_of (P := fun a => a.world.Balanced (a.exact = true ∧ a.calm = true))
    (fun a ha => reachable_fresh (reachable_world ha)) ?_ ?_
  · rintro a ⟨⟨l, -, hw⟩, -⟩
    rw [hw]
    exact ⟨fun _ => rfl, rfl⟩
  · rintro a _ hfresh ha ⟨e, w, hnext, hans, rfl⟩
    have hst := next_cases hnext
    rw [record_world]
    -- outside the comparison both are as before
    have hkeep : ¬(e = .main ∧ a.world.main.pc = .threshold) →
        (a.record e w).exact = true ∧ (a.record e w).calm = true →
        (a.exact = true ∧ a.calm = true) ∧ ∀ c, (a.world.sub c).Calm (w.sub c) := by
      rintro hno ⟨he, hc⟩
      obtain ⟨hexact, hcalm⟩ := record_exact (w := w) hno
      exact ⟨⟨hexact ▸ he, (hcalm hc).1⟩, (hcalm hc).2⟩
    by_cases hmain : e = .main
    · subst hmain
      cases hst with
      | main hm =>
        exact ha.mains hm hans (fun hpc he => record_threshold hpc he.1) fun hpc he =>
          (hkeep (fun h => hpc h.2) he).1
    · have hkeep := hkeep fun h => hmain h.1
      by_cases hsteal : ∃ c, e = .steal c
      · obtain ⟨c, rfl⟩ := hsteal
        cases hst with
        | steal hsig hpc => exact ha.steal (hfresh c) hsig fun he => (hkeep he).1
      · obtain ⟨hm, hr, hs⟩ := hst.others hmain fun c he => hsteal ⟨c, he⟩
        exact ha.of_eq hm hr (fun c => (hs c).1) fun he =>
          ⟨(hkeep he).1, fun c => (hs c).2.weight_eq ((hkeep he).2 c)⟩

/-- The same for what was read. -/
theorem reachable_covered (h : (systemIf P Answered).Reachable a) :
    a.world.Covered (a.exact = true) := by
  induction h with
  | init ha =>
    obtain ⟨⟨l, -, hw⟩, -⟩ := ha
    rw [hw]
    exact covered_of_stealing rfl
  | @step a b hr hst ih =>
    have hb := hr.step hst
    obtain ⟨e, w, hnext, hans, rfl⟩ := hst
    have hreach := reachable_world hr
    have hreach' := reachable_world hb
    rw [record_world] at hreach' ⊢
    have hst := next_cases hnext
    have hkeep : ¬(e = .main ∧ a.world.main.pc = .threshold) →
        (a.record e w).exact = true → a.exact = true := fun hno he => (record_exact hno).1 ▸ he
    by_cases hmain : e = .main
    · subst hmain
      cases hst with
      | main hm =>
        exact ih.mains (reachable_balanced hr) hm hans (fun hpc => record_threshold hpc)
          fun hpc => hkeep fun h => hpc h.2
    · have hkeep := hkeep fun h => hmain h.1
      by_cases hsteal : ∃ c, e = .steal c
      · obtain ⟨c, rfl⟩ := hsteal
        cases hst with
        | steal hsig hpc =>
          exact ih.steal (reachable_balanced hr) (reachable_fresh hreach c) hsig
            (queued_nonneg (reachable_fresh hreach' c) ((reachable_lasting hreach').subs c)) hkeep
      · obtain ⟨hm, hrep, hs⟩ := hst.others hmain fun c he => hsteal ⟨c, he⟩
        exact ih.of_below hm hrep (fun c => (hs c).1) (fun c => (hs c).2.below
          (remainingTime_nonneg (reachable_fresh hreach c) ((reachable_lasting hreach).subs c)))
          hkeep

/-- **A steal loses nothing.** In every state a ready process has never run, and what
`steal_handler` sends of it gives back the same process on the other CPU. And in every run in
which the main scheduler takes no termination message for a reply, what it publishes after a
steal, where it has read exact loads, has the same sums, without a cut at 0; and it is exact if
nothing has been dispatched or has run in between. -/
theorem exact_of_answered :
    (∀ w, (World.system P).Reachable w → ∀ c,
      (∀ x ∈ (w.sub c).readyQueue, Unstarted x) ∧
      ∀ x ∈ (w.sub c).readyToSteal, createPCB { pcbToProcessData x 11 with mtype := 1 } =
        { x with base := 0, limit := 0 }) ∧
    ∀ a, (systemIf P Answered).Reachable a → a.Conserving := by
  refine ⟨fun w hw c => ⟨fun x hx => ?_, fun x hx => ?_⟩, fun a ha hexact b read runtime hpc => ?_⟩
  · obtain ⟨pd, rfl⟩ := reachable_fresh hw c x hx
    exact unstarted_createPCB pd
  · obtain ⟨pd, rfl⟩ := (reachable_fresh hw c).readyToSteal x hx
    exact createPCB_pcbToProcessData pd 11 1
  · have hbal := reachable_balanced ha
    rw [World.Balanced, hpc] at hbal
    obtain ⟨hpos, hkeep⟩ := (reachable_covered ha).reflect b read runtime hpc hexact
    -- no clamp fires
    have hsame : Main.reflect read b runtime = moved read b runtime := by
      funext c
      rw [Main.reflect, moved]
      by_cases hc : c = b
      · subst hc
        rw [if_pos rfl, if_pos rfl, if_pos hpos, if_neg (not_lt.mpr hkeep)]
        rfl
      · rw [if_neg hc, if_neg hc]
        rfl
    rw [hsame]
    refine ⟨fun hcalm => hbal.2 ⟨hexact, hcalm⟩, ?_, ?_, hpos, hkeep⟩
    · cases b <;> simp [moved, Slot.minus, Slot.plus]
    · cases b <;> simp [moved, Slot.minus, Slot.plus]

/-! ### Explicit runs -/

instance (w : World) (e : Event) : Decidable (w.Answered e) :=
  match e with
  | .main => inferInstanceAs (Decidable (_ → ∀ pd ∈ w.resp.head?, _))
  | .tick | .sub _ | .steal _ | .stall _ | .child _ | .observe | .send | .sync | .last =>
    inferInstanceAs (Decidable True)

def start (l : List ProcessData) : Weighed where
  world := World.start l
  exact := false
  calm := false

def play (P : Params) (a : Weighed) (e : Event) : Option Weighed :=
  (World.next P a.world e).map (a.record e)

def playAnswered (P : Params) (a : Weighed) (e : Event) : Option Weighed :=
  if a.world.Answered e then a.play P e else none

theorem play_step (a : Weighed) (e : Event) (b : Weighed) (h : a.play P e = some b) :
    (systemIf P fun _ _ => True).step a b := by
  obtain ⟨w, hw, rfl⟩ := Option.map_eq_some_iff.mp h
  exact ⟨e, w, hw, trivial, rfl⟩

theorem playAnswered_step (a : Weighed) (e : Event) (b : Weighed)
    (h : a.playAnswered P e = some b) : (systemIf P Answered).step a b := by
  rw [playAnswered] at h
  split_ifs at h with hans
  obtain ⟨w, hw, rfl⟩ := Option.map_eq_some_iff.mp h
  exact ⟨e, w, hw, hans, rfl⟩

/-- The process that is about to be taken off a CPU, and the number of those that were read. -/
def reading : MainPc → Option (Cpu × ℤ)
  | .reflect b read _ => some (b, (read b).count)
  | _ => none

theorem reading_eq_some {pc : MainPc} {b : Cpu} {n : ℤ} (h : reading pc = some (b, n)) :
    ∃ read runtime, pc = .reflect b read runtime ∧ (read b).count = n := by
  cases pc <;> simp only [reading, reduceCtorEq, Option.some.injEq, Prod.mk.injEq] at h
  obtain ⟨rfl, hn⟩ := h
  exact ⟨_, _, rfl, hn⟩

/-- Three processes are routed at tick 1, and one of the two of the first CPU goes to the second
one: the loads were read from the table that the routing has published, and they are exact. -/
theorem exact_of_answered_three : ∃ a, playAll (playAnswered { N := 1, M := 0 })
    (start Arrivals.three) (Arrivals.routedRun ++ [.steal .one, .main, .main]) = some a ∧
    a.exact = true ∧ a.calm = true ∧ (reading a.world.main.pc).isSome ∧ a.Conserving := by
  have hrun : (playAll (playAnswered { N := 1, M := 0 }) (start Arrivals.three)
      (Arrivals.routedRun ++ [.steal .one, .main, .main])).map (fun a =>
        (a.exact, a.calm, (reading a.world.main.pc).isSome)) = some (true, true, true) := by
    decide +kernel
  obtain ⟨a, ha, he⟩ := Option.map_eq_some_iff.mp hrun
  simp only [Prod.mk.injEq] at he
  obtain ⟨hexact, hcalm, hread⟩ := he
  have hstart : (systemIf { N := 1, M := 0 } Answered).Reachable (start Arrivals.three) :=
    .init ⟨⟨_, Arrivals.workload_three.1, rfl⟩, rfl⟩
  exact ⟨a, ha, hexact, hcalm, hread,
    exact_of_answered.2 a (hstart.playAll playAnswered_step ha)⟩

/-- The first sub-scheduler overwrites the load that has been routed to it, so that the second
one ends when it is told that no process will come. At tick 3 the main scheduler compares the
loads, and sends the command while the termination message is on its way. -/
def ackRun : List Event :=
  List.flatten [List.replicate 14 (.sub .two), List.replicate 12 (.sub .one),
    [.tick, .observe, .send, .sync, .last], List.replicate 11 .main,
    List.replicate 2 (.sub .one), .tick :: List.replicate 10 .main,
    List.replicate 17 (.sub .two), List.replicate 20 (.sub .one),
    .tick :: List.replicate 4 .main, .sub .two :: List.replicate 4 .main]

/-- **The termination message is taken for the reply**: the first CPU is running its only
process, and a process with nothing in it is added to the other one. -/
theorem not_exact : ¬∀ a, (systemIf { N := 3, M := 0 } fun _ _ => True).Reachable a →
    a.Conserving := by
  intro hall
  have hrun : (playAll (play { N := 3, M := 0 }) (start [soleProcess 0]) ackRun).map
      (fun a => (a.exact, reading a.world.main.pc)) = some (true, some (.one, 0)) := by
    decide +kernel
  obtain ⟨a, ha, h⟩ := Option.map_eq_some_iff.mp hrun
  obtain ⟨hexact, hread⟩ := Prod.mk.inj h
  obtain ⟨read, runtime, hpc, hn⟩ := reading_eq_some hread
  have hstart : (systemIf { N := 3, M := 0 } fun _ _ => True).Reachable (start [soleProcess 0]) :=
    .init ⟨⟨_, CpuScheduler.World.workload_sole 0, rfl⟩, rfl⟩
  have hpos := (hall a (hstart.playAll play_step ha) hexact .one read runtime hpc).2.2.2.1
  omega

end Weighed

end Dual

end CpuScheduler
