import CpuScheduler.Dual.Exact

/-!
# Where a process is

A process that the main scheduler has routed is in the input queue of a sub-scheduler, or ready or
running there, or in a reply on its way back, or finished. The lists of these places together are
a permutation of the list of all that have been routed (`CpuScheduler.Dual.World.Conserved`), and
nothing is routed twice (`CpuScheduler.Dual.World.Flow`).

A step moves a process from one place to another:

| step | from | to |
|------|------|----|
| `FCFS_algo` of the main scheduler | the ready queue of the main scheduler | an input queue |
| a loop that receives messages | the input queue | the ready queue |
| `dequeue` in `FCFS_algo` of a sub-scheduler | the ready queue | the processor |
| `finishLogic` | the processor | finished |
| `steal_handler` | the ready queue | the response queue |
| `check_threshold` | the response queue | the other input queue |
-/

namespace CpuScheduler

namespace Dual

open Fallible

namespace Sub

variable {clk rem : ℤ} {s s' : Sub} {i : ℤ}

/-! ### In a sub-scheduler -/

/-- The processes of a sub-scheduler that are waiting: those in its input queue and the ready
ones. -/
def waiting (s : Sub) : List ℤ := s.inFlight.map ProcessData.id ++ s.readyQueue.map PCB.id

/-- The processes of a sub-scheduler that are not finished: those that are waiting and the
running one. -/
def held (s : Sub) : List ℤ := s.waiting ++ s.currProcess.toList.map PCB.id

/-- How many processes a sub-scheduler is running or has finished. -/
def served (s : Sub) : ℕ := s.currProcess.toList.length + s.finished.length

/-- How often a process is in a sub-scheduler. -/
def tally (s : Sub) (i : ℤ) : ℕ := s.held.count i + s.finished.count i

/-- The processor is free when a process is taken out of the ready queue. -/
def Free (s : Sub) : Prop := s.pc = .dequeue → s.currProcess = none

theorem held_of_eq (hf : s'.inFlight = s.inFlight) (hr : s'.readyQueue = s.readyQueue)
    (hc : s'.currProcess.map PCB.id = s.currProcess.map PCB.id) : s'.held = s.held := by
  rw [held, held, waiting, waiting, hf, hr, ← Option.toList_map, ← Option.toList_map, hc]

theorem tally_of_eq (hf : s'.inFlight = s.inFlight) (hr : s'.readyQueue = s.readyQueue)
    (hc : s'.currProcess.map PCB.id = s.currProcess.map PCB.id) (hfin : s'.finished = s.finished) :
    s'.tally i = s.tally i := by
  rw [tally, tally, held_of_eq hf hr hc, hfin]

theorem tally_eq (s : Sub) (i : ℤ) : s.tally i =
    (s.inFlight.map ProcessData.id).count i + (s.readyQueue.map PCB.id).count i +
      (s.currProcess.toList.map PCB.id).count i + s.finished.count i := by
  rw [tally, held, waiting, List.count_append, List.count_append]

/-- A message for a new process comes in. -/
theorem tally_of_post {pd : ProcessData} (hpc : s'.pc = s.pc)
    (hm : s'.msgq = s.msgq ++ [{ pd with mtype := 1 }]) (hr : s'.readyQueue = s.readyQueue)
    (hc : s'.currProcess = s.currProcess) (hfin : s'.finished = s.finished) :
    s'.tally i = s.tally i + [pd.id].count i := by
  have hflight : s'.inFlight = s.inFlight ++ [{ pd with mtype := 1 }] := by
    rw [inFlight, inFlight, inHand, hpc, ← inHand, hm, List.filter_append, List.append_assoc]
    rfl
  have hids : (s.inFlight ++ [{ pd with mtype := 1 }]).map ProcessData.id =
      s.inFlight.map ProcessData.id ++ [pd.id] := List.map_append
  rw [tally_eq, tally_eq, hflight, hids, List.count_append, hr, hc, hfin]
  omega

/-- **A sub-scheduler neither loses nor doubles a process** in its own steps. -/
theorem Moves.tally (hs : s.Moves clk rem s') (hfree : s.Free) (i : ℤ) :
    s'.tally i = s.tally i := by
  cases hs with
  | @fetch b pd q hpc hq h1 =>
    refine tally_of_eq ?_ rfl rfl rfl
    rw [inFlight, inFlight, inHand_of_pc hpc rfl, hq, List.filter_cons_of_pos (by simpa using h1)]
    rfl
  | @put b pd hpc =>
    have hflight : s.inFlight = pd :: s.msgq.filter fun pd => pd.mtype = 1 := by
      rw [inFlight, inHand, hpc]
      rfl
    have hready : (s.readyQueue ++ [createPCB pd]).map PCB.id =
        s.readyQueue.map PCB.id ++ [pd.id] :=
      List.map_append
    have hcons : List.count i ((pd :: s.msgq.filter fun pd => pd.mtype = 1).map ProcessData.id) =
        List.count i ((s.msgq.filter fun pd => pd.mtype = 1).map ProcessData.id) +
          [pd.id].count i := by
      rw [List.map_cons, ← List.singleton_append, List.count_append, Nat.add_comm]
    refine (tally_eq _ i).trans ?_
    show ((s.msgq.filter fun pd => pd.mtype = 1).map ProcessData.id).count i +
      ((s.readyQueue ++ [createPCB pd]).map PCB.id).count i +
      (s.currProcess.toList.map PCB.id).count i + s.finished.count i = _
    rw [tally_eq, hflight, hready, hcons, List.count_append]
    omega
  | @drained b hpc hq =>
    exact tally_of_eq (inFlight_eq (inHand_of_pc hpc rfl) (by cases b <;> rfl) rfl) rfl rfl rfl
  | @last b pd q hpc hq h5 =>
    exact tally_of_eq (inFlight_drop (inHand_of_pc hpc rfl) (by cases b <;> rfl) hq (by omega) rfl)
      rfl rfl rfl
  | drop hpc hq h1 h5 =>
    exact tally_of_eq (inFlight_drop (inHand_of_pc hpc rfl) (inHand_of_pc hpc rfl) hq h1 rfl)
      rfl rfl rfl
  | @dequeue x q hpc hq =>
    have hflight : ({ s with
        currProcess := some x
        readyQueue := q
        dispatched := s.dispatched ++ [x.id]
        pc := .count } : Sub).inFlight = s.inFlight := inFlight_eq (inHand_of_pc hpc rfl) rfl rfl
    rw [tally_eq, tally_eq, hfree hpc, hq, hflight]
    simp only [List.map_cons, List.count_cons, Option.toList_some, Option.toList_none,
      List.map_nil, List.count_nil]
    omega
  | finish hpc hfin hs =>
    obtain ⟨x, l, p, hx, -, rfl⟩ := finishLogic_eq_ok hs
    have hflight : s.inFlight = s.msgq.filter fun pd => pd.mtype = 1 := by
      rw [inFlight, inHand_of_pc hpc rfl]
      rfl
    refine (tally_eq _ i).trans ?_
    show ((s.msgq.filter fun pd => pd.mtype = 1).map ProcessData.id).count i +
      (s.readyQueue.map PCB.id).count i + List.count i [] + (s.finished ++ [x.id]).count i = _
    rw [tally_eq, hx, hflight, List.count_append]
    simp only [List.map_cons, Option.toList_some, List.map_nil, List.count_nil]
    omega
  | resume hpc =>
    obtain ⟨st, y, l, ch, hs, hid⟩ := s.endStall_eq clk
    rw [hs]
    exact tally_of_eq (inFlight_eq (inHand_of_pc hpc rfl) rfl rfl) rfl hid rfl
  | run hpc hs =>
    obtain ⟨x, y, l, ch, hx, hid, rfl⟩ := runProcess_eq_ok hs
    refine tally_of_eq (inFlight_eq (inHand_of_pc hpc rfl) rfl rfl) rfl ?_ rfl
    rw [hx]
    exact congrArg some hid
  | permit hpc =>
    obtain ⟨n, hs⟩ := s.permit_eq
    rw [hs]
    exact tally_of_eq (inFlight_eq (inHand_of_pc hpc rfl) rfl rfl) rfl rfl rfl
  | _ hpc => exact tally_of_eq (inFlight_eq (inHand_of_pc hpc rfl) rfl rfl) rfl rfl rfl

theorem free_of_moves (hs : s.Moves clk rem s') : s'.Free := by
  cases hs with
  | choose hpc hcurr hne => exact fun _ => hcurr
  | @drained b hpc hq | @last b pd q hpc hq h5 => cases b <;> exact fun h => nomatch h
  | drop hpc hq h1 h5 => exact fun h => nomatch hpc.symm.trans h
  | _ => exact fun h => nomatch h

theorem served_le_of_eq (hc : s'.currProcess.map PCB.id = s.currProcess.map PCB.id)
    (hfin : s'.finished = s.finished) : s.served ≤ s'.served := by
  have hlen : ∀ o : Option PCB, o.toList.length = (o.map PCB.id).toList.length := by
    rintro (- | x)
    · rfl
    · rfl
  rw [served, served, hlen, hlen, hc, hfin]

/-- **A process that has been dispatched is not taken back**, nor one that is finished. -/
theorem Moves.served_le (hs : s.Moves clk rem s') (hfree : s.Free) : s.served ≤ s'.served := by
  cases hs with
  | dequeue hpc hq =>
    rw [served, served, hfree hpc]
    simp only [Option.toList_none, List.length_nil, Option.toList_some, List.length_singleton]
    omega
  | finish hpc hfin hs =>
    obtain ⟨x, l, p, hx, -, rfl⟩ := finishLogic_eq_ok hs
    rw [served, served, hx]
    simp only [Option.toList_none, List.length_nil, Option.toList_some, List.length_append,
      List.length_singleton]
    omega
  | resume hpc =>
    obtain ⟨st, y, l, ch, hs, hid⟩ := s.endStall_eq clk
    rw [hs]
    exact served_le_of_eq hid rfl
  | run hpc hs =>
    obtain ⟨x, y, l, ch, hx, hid, rfl⟩ := runProcess_eq_ok hs
    refine served_le_of_eq ?_ rfl
    rw [hx]
    exact congrArg some hid
  | permit hpc =>
    obtain ⟨n, hs⟩ := s.permit_eq
    rw [hs]
    exact served_le_of_eq rfl rfl
  | _ => exact served_le_of_eq rfl rfl

/-- A handler takes processes out of the message queue, and leaves `q` of all that are ready
then. -/
theorem tally_left {q r : List PCB} (hpc : s'.pc = s.pc) (hm : s'.msgq = left s.msgq)
    (hc : s'.currProcess.map PCB.id = s.currProcess.map PCB.id) (hfin : s'.finished = s.finished)
    (hr : s'.readyQueue = q) (hq : s.readyToSteal = q ++ r) :
    s'.tally i + (r.map PCB.id).count i = s.tally i := by
  have hflight := List.perm_iff_count.mp ((inFlight_left hpc hm).map ProcessData.id) i
  have hready : (s.readyQueue.map PCB.id).count i + ((news s.msgq).map ProcessData.id).count i =
      (q.map PCB.id).count i + (r.map PCB.id).count i := by
    have hids : (news s.msgq).map ProcessData.id = ((news s.msgq).map createPCB).map PCB.id := by
      rw [List.map_map]
      rfl
    rw [hids, ← List.count_append, ← List.count_append, ← List.map_append, ← List.map_append, ← hq,
      readyToSteal]
  rw [List.map_append, List.count_append] at hflight
  rw [tally_eq, tally_eq, hr, hfin, ← Option.toList_map, ← Option.toList_map, hc]
  omega

end Sub

/-- The process that the main scheduler has got back and not sent on. -/
def MainPc.hand : MainPc → List ℤ
  | .resend _ _ resp => [resp.id]
  | _ => []

namespace World

variable {P : Params} {w w' : World} {c d : Cpu} {e : Event} {s : Sub} {i : ℤ}

/-! ### In the whole program -/

/-- The processes in the response queue. -/
def replied (l : List ProcessData) : List ℤ :=
  (l.filter fun pd => pd.mtype = 11).map ProcessData.id

/-- **The processes that have been routed and are not finished**: those of the two
sub-schedulers, and those that are on their way from one to the other. -/
def unfinished (w : World) : List ℤ :=
  (w.sub .one).held ++ (w.sub .two).held ++ (replied w.resp ++ w.main.pc.hand)

/-- The processes that are finished. -/
def finished (w : World) : List ℤ := (w.sub .one).finished ++ (w.sub .two).finished

/-- The processes that have been routed and not dispatched. -/
def waiting (w : World) : List ℤ :=
  (w.sub .one).waiting ++ (w.sub .two).waiting ++ (replied w.resp ++ w.main.pc.hand)

/-- **Every process that has been routed is in exactly one place.** -/
def Conserved (w : World) : Prop := w.routed.Perm (w.unfinished ++ w.finished)

/-- How often a process is in the sub-schedulers. -/
def tallies (w : World) (i : ℤ) : ℕ := (w.sub .one).tally i + (w.sub .two).tally i

theorem conserved_iff : w.Conserved ↔ ∀ i, w.routed.count i =
    w.tallies i + (replied w.resp).count i + w.main.pc.hand.count i := by
  rw [Conserved, List.perm_iff_count]
  refine forall_congr' fun i => ?_
  rw [unfinished, finished, tallies, Sub.tally, Sub.tally]
  simp only [List.count_append]
  omega

theorem tallies_setSub (w : World) (c : Cpu) (s : Sub) (i : ℤ) :
    (w.setSub c s).tallies i + (w.sub c).tally i = w.tallies i + s.tally i := by
  cases c <;> simp only [tallies, setSub, Function.update_self, ne_eq, reduceCtorEq,
    not_false_eq_true, Function.update_of_ne] <;> omega

theorem tallies_congr (h : ∀ c, (w'.sub c).tally i = (w.sub c).tally i) :
    w'.tallies i = w.tallies i := by
  rw [tallies, tallies, h, h]

/-- A message puts a process into an input queue. -/
theorem tallies_send (w : World) (c : Cpu) (pd : ProcessData) (i : ℤ) :
    (w.sendProcessMsg c pd 1).tallies i = w.tallies i + [pd.id].count i := by
  have hpost : ({ w.sub c with
      msgq := (w.sub c).msgq ++ [{ pd with mtype := 1 }] } : Sub).tally i =
      (w.sub c).tally i + [pd.id].count i := Sub.tally_of_post rfl rfl rfl rfl rfl
  have hset := tallies_setSub w c { w.sub c with
    msgq := (w.sub c).msgq ++ [{ pd with mtype := 1 }] } i
  change (w.setSub c _).tallies i = _
  omega

/-- Another message does not. -/
theorem tallies_tell (w : World) (c : Cpu) (pd : ProcessData) {t : ℤ} (ht : t ≠ 1) (i : ℤ) :
    (w.sendProcessMsg c pd t).tallies i = w.tallies i := by
  refine tallies_congr fun d => ?_
  rw [sendProcessMsg]
  by_cases hd : d = c
  · subst hd
    rw [setSub_sub_self]
    refine Sub.tally_of_eq ?_ rfl rfl rfl
    rw [Sub.inFlight, Sub.inFlight, List.filter_append, List.filter_cons_of_neg (by simpa using ht),
      List.filter_nil, List.append_nil]
    rfl
  · rw [setSub_sub_of_ne _ _ hd]

theorem replied_replies (l : List ProcessData) : replied (replies l) = replied l := by
  rw [replied, replies, List.filter_filter, replied]
  refine congrArg (List.map ProcessData.id) (List.filter_congr fun pd _ => ?_)
  by_cases h : pd.mtype = 11
  · simp [h]
  · simp [h]

theorem hand_behindReceive (now : ℤ) : (Main.behindReceive now).hand = [] := by
  rw [Main.behindReceive]
  split_ifs <;> rfl

/-- **The main scheduler neither loses nor doubles a process**, where a reply that it sends on is
one. -/
theorem Conserved.mains (h : w.Conserved) (hm : Mains P w w')
    (hreply : ∀ b read resp rest, w.main.pc = .await b read → w.resp = resp :: rest →
      resp.mtype ≠ 12 → resp.mtype = 11) : w'.Conserved := by
  rw [conserved_iff] at h ⊢
  intro i
  have hi := h i
  -- A move that leaves all places alone.
  have hplain : w'.routed = w.routed → w'.tallies i = w.tallies i →
      replied w'.resp = replied w.resp → w'.main.pc.hand = w.main.pc.hand →
      w'.routed.count i = w'.tallies i + (replied w'.resp).count i + w'.main.pc.hand.count i := by
    intro hr ht hresp hhand
    rw [hr, ht, hresp, hhand]
    exact hi
  have hhand : ∀ {pc : MainPc}, w.main.pc = pc → w'.main.pc.hand = pc.hand →
      w'.main.pc.hand = w.main.pc.hand := fun hpc h => h.trans (congrArg MainPc.hand hpc).symm
  cases hm with
  | spin hpc hgo hold => exact hplain rfl rfl (replied_replies _) rfl
  | begin hpc hgo hnew => exact hplain rfl rfl (replied_replies _) (hhand hpc rfl)
  | shut hpc =>
    refine hplain rfl rfl rfl (hhand hpc ?_)
    change (if w.main.receivingProcesses then MainPc.receive else _).hand = []
    split_ifs
    · rfl
    · exact hand_behindReceive _
  | arrive hpc hrcv h1 => exact hplain rfl rfl rfl rfl
  | drop hpc hrcv h1 h5 h2 => exact hplain rfl rfl rfl rfl
  | sync hpc hrcv h2 hnew | last hpc hrcv h5 =>
    exact hplain rfl rfl rfl (hhand hpc (hand_behindReceive _))
  | @route l x rest hpc hr =>
    have hsent := tallies_send w (Main.routeTo l) (pcbToProcessData x 11) i
    rw [hpc] at hi
    show (w.routed ++ [x.id]).count i = (w.sendProcessMsg (Main.routeTo l)
      (pcbToProcessData x 11) 1).tallies i + (replied w.resp).count i + List.count i []
    rw [List.count_append, hsent]
    change _ = _ + _ + List.count i [] at hi
    simp only [pcbToProcessData]
    omega
  | @refused b read resp rest hpc hrcv h12 =>
    refine hplain rfl rfl ?_ (hhand hpc rfl)
    rw [hrcv, replied, replied, List.filter_cons_of_neg (by simp [h12])]
    rfl
  | @reply b read resp rest hpc hrcv h12 =>
    have h11 := hreply b read resp rest hpc hrcv h12
    rw [hpc, hrcv, replied, List.filter_cons_of_pos (by simp [h11])] at hi
    show w.routed.count i = w.tallies i + (replied rest).count i + [resp.id].count i
    rw [hi, replied, List.map_cons, ← List.singleton_append, List.count_append]
    change _ + _ + List.count i [] = _
    rw [List.count_nil]
    omega
  | @resend b read resp hpc =>
    have hsent := tallies_send w b.other resp i
    rw [hpc] at hi
    show w.routed.count i = (w.sendProcessMsg b.other resp 1).tallies i +
      (replied w.resp).count i + List.count i []
    change _ = _ + _ + [resp.id].count i at hi
    rw [hsent, List.count_nil]
    omega
  | stall hpc =>
    exact hplain rfl (tallies_congr fun _ => Sub.tally_of_eq rfl rfl rfl rfl) rfl (hhand hpc rfl)
  | @steal b read hpc =>
    refine hplain rfl (tallies_congr fun d => ?_) rfl (hhand hpc rfl)
    change ((w.setSub b _).sub d).tally i = _
    by_cases hd : d = b
    · subst hd
      rw [setSub_sub_self]
      exact Sub.tally_of_eq rfl rfl rfl rfl
    · rw [setSub_sub_of_ne _ _ hd]
  | term₁ hpc => exact hplain rfl (tallies_tell w _ _ (by decide) i) rfl (hhand hpc rfl)
  | term₂ hpc => exact hplain rfl (tallies_tell w _ _ (by decide) i) rfl (hhand hpc rfl)
  | @bottom pc hpc hterm =>
    refine hplain rfl rfl rfl (hhand hpc ?_)
    rcases hterm with ⟨-, -, rfl⟩ | ⟨-, rfl⟩
    · rfl
    · rfl
  | _ hpc => exact hplain rfl rfl rfl (hhand hpc rfl)

theorem Conserved.step (h : w.Conserved) (hst : Steps P w e w') (hfree : ∀ c, (w.sub c).Free)
    (hreply : e = .main → ∀ b read resp rest, w.main.pc = .await b read → w.resp = resp :: rest →
      resp.mtype ≠ 12 → resp.mtype = 11) : w'.Conserved := by
  -- What a sub-scheduler does without replying.
  have hset : ∀ (c : Cpu) (s : Sub) {w' : World}, (∀ i, s.tally i = (w.sub c).tally i) →
      w'.routed = w.routed → w'.sub = (w.setSub c s).sub → w'.main = w.main →
      replied w'.resp = replied w.resp → w'.Conserved := by
    intro c s w' hs hr hsub hm hresp
    rw [conserved_iff] at h ⊢
    intro i
    have hi := h i
    have ht := tallies_setSub w c s i
    have hs := hs i
    have htal : w'.tallies i = (w.setSub c s).tallies i := by rw [tallies, tallies, hsub]
    rw [hr, hresp, hm, htal]
    omega
  cases hst with
  | main hm => exact h.mains hm (hreply rfl)
  | @sub c _ hs =>
    cases hs with
    | own hm => exact hset c _ (hm.tally (hfree c)) rfl rfl rfl rfl
    | pass hpc h0 hgate =>
      refine hset c { w.sub c with lastTick := (w.sub c).now, pc := .drain true } (fun i => ?_)
        rfl rfl rfl rfl
      exact Sub.tally_of_eq (Sub.inFlight_eq (Sub.inHand_of_pc hpc rfl) rfl rfl) rfl rfl rfl
    | @write k n t hpc =>
      refine hset c { w.sub c with pc := Sub.behindWrite k } (fun i => ?_) rfl rfl rfl rfl
      have hnone : ({ w.sub c with pc := Sub.behindWrite k } : Sub).inHand = [] := by
        cases k <;> rfl
      exact Sub.tally_of_eq (Sub.inFlight_eq (Sub.inHand_of_pc hpc rfl) hnone rfl) rfl rfl rfl
    | ack hpc =>
      refine hset c { w.sub c with pc := .closing } (fun i => ?_) rfl rfl rfl ?_
      · exact Sub.tally_of_eq (Sub.inFlight_eq (Sub.inHand_of_pc hpc rfl) rfl rfl) rfl rfl rfl
      · show replied (w.resp ++ [bareMsg 6]) = replied w.resp
        rw [replied, List.filter_append, List.map_append]
        exact List.append_nil _
  | @steal c hsig hpc =>
    rcases (w.sub c).stealHandler_cases w.clock with ⟨hnil, v, r, hs⟩ | ⟨x, q, hq, v, r, hs⟩
    · refine hset c ((w.sub c).stealHandler w.clock).1 (fun i => ?_) rfl rfl rfl ?_
      · rw [hs]
        exact Sub.tally_left (r := []) rfl rfl rfl rfl rfl hnil
      · show replied (w.resp ++ [((w.sub c).stealHandler w.clock).2]) = replied w.resp
        rw [hs, replied, List.filter_append, List.map_append]
        exact List.append_nil _
    · rw [conserved_iff] at h ⊢
      intro i
      have hi := h i
      have ht := tallies_setSub w c ((w.sub c).stealHandler w.clock).1 i
      have hleft : ((w.sub c).stealHandler w.clock).1.tally i + [x.id].count i =
          (w.sub c).tally i := by
        rw [hs]
        exact Sub.tally_left (r := [x]) rfl rfl rfl rfl rfl hq
      have hresp : (replied (w.steal c).resp).count i = (replied w.resp).count i +
          [x.id].count i := by
        show (replied (w.resp ++ [((w.sub c).stealHandler w.clock).2])).count i = _
        rw [hs, replied, List.filter_append, List.map_append, List.count_append]
        rfl
      show w.routed.count i = (w.setSub c ((w.sub c).stealHandler w.clock).1).tallies i +
        (replied (w.steal c).resp).count i + w.main.pc.hand.count i
      omega
  | @stall c hsig hpc =>
    refine hset c ((w.sub c).stallSig w.clock) (fun i => ?_) rfl rfl rfl rfl
    obtain ⟨y, v, r, l, ch, hs, hid⟩ := (w.sub c).stallSig_eq w.clock
    rw [hs]
    exact Sub.tally_left (r := []) rfl rfl hid rfl rfl (List.append_nil _).symm
  | @child c s hs =>
    refine hset c s (fun i => ?_) rfl rfl rfl rfl
    obtain ⟨fin, sem, rt, ch, rfl⟩ := Sub.childStep_eq_some hs
    exact Sub.tally_of_eq rfl rfl rfl rfl
  | _ => exact h

/-- Each process that has been routed is waiting, or has been dispatched. -/
theorem Conserved.length (h : w.Conserved) : w.routed.length =
    w.waiting.length + ((w.sub .one).served + (w.sub .two).served) := by
  rw [List.Perm.length_eq h, unfinished, finished, waiting]
  simp only [List.length_append, Sub.held, List.length_map, Sub.served]
  omega

/-- Nobody else takes a process out of the ready queue. -/
theorem Happens.free (h : Happens w c e s) (hfree : (w.sub c).Free) : s.Free := by
  cases h with
  | reached hs =>
    obtain ⟨q, u, v, rfl⟩ := hs
    exact hfree
  | own hs => exact Sub.free_of_moves hs
  | @write k n t hpc => cases k <;> exact fun h => nomatch h
  | steal hsig hpc =>
    rcases (w.sub c).stealHandler_cases w.clock with ⟨-, v, r, hs⟩ | ⟨x, q, -, v, r, hs⟩
    · rw [hs]
      exact hfree
    · rw [hs]
      exact hfree
  | stall hsig hpc =>
    obtain ⟨y, v, r, l, ch, hs, hid⟩ := (w.sub c).stallSig_eq w.clock
    rw [hs]
    intro hpc
    rw [hfree hpc] at hid
    exact Option.map_eq_none_iff.mp hid
  | child hs =>
    obtain ⟨fin, sem, rt, ch, rfl⟩ := Sub.childStep_eq_some hs
    exact hfree
  | _ => exact fun h => nomatch h

theorem Happens.served_le (h : Happens w c e s) (hfree : (w.sub c).Free) :
    (w.sub c).served ≤ s.served := by
  cases h with
  | reached hs =>
    obtain ⟨q, u, v, rfl⟩ := hs
    exact Sub.served_le_of_eq rfl rfl
  | own hs => exact hs.served_le hfree
  | steal hsig hpc =>
    rcases (w.sub c).stealHandler_cases w.clock with ⟨-, v, r, hs⟩ | ⟨x, q, -, v, r, hs⟩
    · rw [hs]
      exact Sub.served_le_of_eq rfl rfl
    · rw [hs]
      exact Sub.served_le_of_eq rfl rfl
  | stall hsig hpc =>
    obtain ⟨y, v, r, l, ch, hs, hid⟩ := (w.sub c).stallSig_eq w.clock
    rw [hs]
    exact Sub.served_le_of_eq hid rfl
  | child hs =>
    obtain ⟨fin, sem, rt, ch, rfl⟩ := Sub.childStep_eq_some hs
    exact Sub.served_le_of_eq rfl rfl
  | _ => exact Sub.served_le_of_eq rfl rfl

/-! ### From the input to the routing -/

/-- The processes among the messages that the generator has sent. -/
def posted (w : World) : List ℤ := (w.msgq.filter fun pd => pd.mtype = 1).map ProcessData.id

/-- **No process is routed twice**: each process of the input has been routed, or is ready in the
main scheduler, or on its way there, or has not been sent. -/
structure Flow (l : List ProcessData) (w : World) : Prop where
  input : ∀ pd ∈ w.gen.queue, pd.mtype = 1
  perm : (w.routed ++ w.main.readyQueue.map PCB.id ++ w.posted ++
    w.gen.queue.map ProcessData.id).Perm (l.map ProcessData.id)

variable {l : List ProcessData}

theorem Flow.of_eq (h : w.Flow l) (hr : w'.routed = w.routed)
    (hq : w'.main.readyQueue = w.main.readyQueue) (hp : w'.posted.Perm w.posted)
    (hg : w'.gen.queue = w.gen.queue) : w'.Flow l := by
  refine ⟨hg ▸ h.input, ?_⟩
  rw [hr, hq, hg]
  exact ((hp.append_left _).append_right _).trans h.perm

/-- A message is received. -/
theorem posted_of_rcv {t : ℤ} {msg : ProcessData} {rest : List ProcessData}
    (hrcv : MsgQueue.rcv ProcessData.mtype t w.msgq = some (msg, rest)) :
    w.posted.Perm (((msg :: rest).filter fun pd => pd.mtype = 1).map ProcessData.id) :=
  ((MsgQueue.perm_of_rcv hrcv).filter _).map _

theorem Flow.mains (h : w.Flow l) (hm : Mains P w w') : w'.Flow l := by
  -- A message that is not one for a new process.
  have hother : ∀ {t : ℤ} {msg : ProcessData} {rest : List ProcessData} {w' : World},
      MsgQueue.rcv ProcessData.mtype t w.msgq = some (msg, rest) → msg.mtype ≠ 1 →
      w'.routed = w.routed → w'.main.readyQueue = w.main.readyQueue → w'.msgq = rest →
      w'.gen.queue = w.gen.queue → w'.Flow l := by
    intro t msg rest w' hrcv h1 hr hq hmsg hg
    refine h.of_eq hr hq ?_ hg
    have hperm := posted_of_rcv hrcv
    rw [List.filter_cons_of_neg (by simpa using h1)] at hperm
    rw [posted, hmsg]
    exact hperm.symm
  cases hm with
  | @arrive msg rest hpc hrcv h1 =>
    have hperm := posted_of_rcv hrcv
    rw [List.filter_cons_of_pos (by simpa using h1)] at hperm
    refine ⟨h.input, List.Perm.trans ?_ h.perm⟩
    refine List.Perm.append_right _ ?_
    show (w.routed ++ (w.main.readyQueue ++ [createPCB msg]).map PCB.id ++
      (rest.filter fun pd => pd.mtype = 1).map ProcessData.id).Perm _
    rw [List.map_append, ← List.append_assoc, List.append_assoc _ _ (List.map _ _)]
    exact hperm.symm.append_left _
  | sync hpc hrcv h2 hnew => exact hother hrcv (by omega) rfl rfl rfl rfl
  | last hpc hrcv h5 => exact hother hrcv (by omega) rfl rfl rfl rfl
  | drop hpc hrcv h1 h5 h2 => exact hother hrcv h1 rfl rfl rfl rfl
  | @route r x rest hpc hr =>
    refine ⟨h.input, List.Perm.trans (List.Perm.of_eq ?_) h.perm⟩
    show w.routed ++ [x.id] ++ rest.map PCB.id ++ w.posted ++ w.gen.queue.map ProcessData.id = _
    rw [hr, List.map_cons, List.append_assoc w.routed, List.singleton_append]
  | term₁ hpc | term₂ hpc | resend hpc | steal hpc => exact h.of_eq rfl rfl (List.Perm.refl _) rfl
  | _ => exact h.of_eq rfl rfl (List.Perm.refl _) rfl

theorem Flow.step (h : w.Flow l) (hst : Steps P w e w') : w'.Flow l := by
  -- A message of the generator that is not one for a new process.
  have hpost : ∀ {d : ProcessData} {g : Generator}, d.mtype ≠ 1 → g.queue = w.gen.queue →
      (w.post d g).Flow l := by
    intro d g h1 hg
    refine h.of_eq rfl rfl (List.Perm.of_eq ?_) hg
    show ((w.msgq ++ [d]).filter fun pd => pd.mtype = 1).map ProcessData.id = _
    rw [List.filter_append, List.filter_cons_of_neg (by simpa using h1), List.filter_nil,
      List.append_nil]
    rfl
  cases hst with
  | main hm => exact h.mains hm
  | sub hs => cases hs <;> exact h.of_eq rfl rfl (List.Perm.refl _) rfl
  | @send t pd q ht hq hdue =>
    have h1 : pd.mtype = 1 := h.input pd (hq ▸ List.mem_cons_self)
    refine ⟨fun d hd => h.input d (hq ▸ List.mem_cons_of_mem _ hd), List.Perm.trans ?_ h.perm⟩
    refine List.Perm.of_eq ?_
    show w.routed ++ w.main.readyQueue.map PCB.id ++
      ((w.msgq ++ [pd]).filter fun pd => pd.mtype = 1).map ProcessData.id ++
        q.map ProcessData.id = _
    rw [List.filter_append, List.filter_cons_of_pos (by simpa using h1), List.filter_nil,
      List.map_append, hq, List.map_cons, List.map_cons, List.map_nil, ← List.append_assoc,
      List.append_assoc _ [pd.id], List.singleton_append]
    rfl
  | sync ht hq => exact hpost (show (2 : ℤ) ≠ 1 by decide) rfl
  | last hq ht hd => exact hpost (show (5 : ℤ) ≠ 1 by decide) rfl
  | observe hq hs hd => exact h.of_eq rfl rfl (List.Perm.refl _) hq
  | _ => exact h.of_eq rfl rfl (List.Perm.refl _) rfl

theorem start_flow (hl : CpuScheduler.World.Workload l) : (start l).Flow l :=
  ⟨hl.mtype, List.Perm.refl _⟩

theorem Flow.nodup (h : w.Flow l) (hl : CpuScheduler.World.Workload l) : w.routed.Nodup := by
  have hall := h.perm.nodup_iff.mpr hl.ids
  exact ((List.nodup_append'.mp (List.nodup_append'.mp (List.nodup_append'.mp hall).1).1).1)

end World

end Dual

end CpuScheduler
