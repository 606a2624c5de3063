import CpuScheduler.RR.InFlight
import CpuScheduler.RR.Signals

/-!
# Every request is served once

A child sends its requests into a kernel queue, `handleRequests` takes the one of the
running process out of it and puts it into a queue in memory, and `checkReqs` serves the
first request of that one, whoever its owner is. When the children are prompt, neither
queue is ever really used. A child that moves is the one of the running process, it has
one permit, and it has sent what it sends when the next turn begins
(`CpuScheduler.RRState.Tidy`); that turn starts with `handleRequests`, before anything
is done about the process. So there is never more than one message, and it is passed to `check`
for its sender while its sender is running (`CpuScheduler.World.Serviced`).

This needs no condition on the last tick of a process: a child that has exited sends nothing.
-/

namespace CpuScheduler

/-- The cuts inside a turn: those that no child may come in between. -/
def Pc.inTurn : Pc → Bool
  | .top | .last | .exited => false
  | _ => true

/-- The cuts at which a message may wait: from the end of a turn to the first thing that
the next one does. -/
def Pc.mayWait : Pc → Bool
  | .top | .last | .requests => true
  | _ => false

namespace RRState

open Fallible Mem

variable {K : Mem → Prop} {P : Params} {clk : Clk} {s s' : RRState} {p : Ptr} {x : PCB}
  {c : Child} {ch : Ptr → Option Child} {o : Option Ptr} {n : ℕ}

/-! ### Who can send -/

/-- All children but the one of `o` are stopped or have exited. -/
def Quiet (o : Option Ptr) (ch : Ptr → Option Child) : Prop :=
  ∀ q c, ch q = some c → o ≠ some q → c.stopped = true ∨ c.exited = true

/-- No child has a move left. -/
def Still (ch : Ptr → Option Child) (sem : ℕ) : Prop :=
  ∀ q c, ch q = some c → c.stopped = true ∨ c.exited = true ∨ (0 < c.remainingtime ∧ sem = 0)

theorem still_of_prompt (h : ∀ p, s.childStep p = none) : Still s.child s.sem := by
  intro q c hc
  cases hgo : c.stopped with
  | true => exact Or.inl rfl
  | false => exact Or.inr (stuck hc hgo (h q))

theorem Quiet.update (h : Quiet (some p) ch) {c : Option Child}
    (hc : ∀ c' ∈ c, c'.stopped = true ∨ c'.exited = true) :
    Quiet o (Function.update ch p c) := by
  intro q c' hq _
  by_cases hqp : q = p
  · subst hqp
    rw [Function.update_self] at hq
    exact hc c' hq
  · exact h q c' ((Function.update_of_ne hqp ..).symm.trans hq) fun he =>
      hqp (Option.some.inj he).symm

/-- The child of the running process may be anything. -/
theorem Quiet.running (h : Quiet o ch) (c : Option Child) (ho : o = none ∨ o = some p) :
    Quiet (some p) (Function.update ch p c) := by
  intro q c' hq hne
  have hqp : q ≠ p := fun he => hne (he ▸ rfl)
  refine h q c' ((Function.update_of_ne hqp ..).symm.trans hq) ?_
  rcases ho with rfl | rfl
  · exact nofun
  · exact hne

theorem Still.update (h : Still ch n) {c : Option Child}
    (hc : ∀ c' ∈ c, c'.stopped = true ∨ c'.exited = true) :
    Still (Function.update ch p c) n := by
  intro q c' hq
  by_cases hqp : q = p
  · subst hqp
    rw [Function.update_self] at hq
    exact (hc c' hq).imp_right Or.inl
  · exact h q c' ((Function.update_of_ne hqp ..).symm.trans hq)

/-- The one message that waits is the one of the running process, which has used its permit
for it. -/
structure Waiting (s : RRState) (p : Ptr) (x : PCB) (req : Request) : Prop where
  queue : s.reqMsgq = [req]
  cur : s.currProcess = some p
  pcb : s.heap p = some x
  sender : req.mtype = x.id
  positive : 1 ≤ req.mtype
  used : s.sem = 0
  cut : s.pc.mayWait = true

/-- **Both queues are tidy.** -/
structure Tidy (s : RRState) : Prop where
  quiet : Quiet s.currProcess s.child
  one : s.sem ≤ 1
  still : s.pc.inTurn = true → Still s.child s.sem
  left : s.pc = .exited → s.currProcess = none
  empty : s.requests = []
  post : s.reqMsgq = [] ∨ ∃ p x req, Waiting s p x req

/-- Nothing waits inside a turn. -/
theorem Tidy.nothing (h : Tidy s) (hpc : s.pc.mayWait = false) : s.reqMsgq = [] := by
  rcases h.post with hnil | ⟨p, x, req, hw⟩
  · exact hnil
  · exact nomatch hpc.symm.trans hw.cut

/-- The scheduler goes on to another cut. -/
theorem Tidy.goto (h : Tidy s) (hm : SameCore s.toMem s'.toMem) (hch : s'.child = s.child)
    (hsem : s'.sem = s.sem) (hreq : s'.requests = s.requests) (hmsg : s'.reqMsgq = s.reqMsgq)
    (hstill : s'.pc.inTurn = true → Still s.child s.sem)
    (hleft : s'.pc = .exited → s.currProcess = none)
    (hcut : s.pc.mayWait = true → s'.pc.mayWait = true ∨ s.reqMsgq = []) : Tidy s' where
  quiet := by
    rw [hm.cur, hch]
    exact h.quiet
  one := hsem ▸ h.one
  still hpc := by
    rw [hch, hsem]
    exact hstill hpc
  left hpc := hm.cur.trans (hleft hpc)
  empty := hreq.trans h.empty
  post := by
    rcases h.post with hnil | ⟨p, x, req, hw⟩
    · exact Or.inl (hmsg.trans hnil)
    · rcases hcut hw.cut with hcut | hnil
      · obtain ⟨y, hy, hc⟩ := hm.symm.pcb hw.pcb
        exact Or.inr ⟨p, y, req, hmsg.trans hw.queue, hm.cur.trans hw.cur, hy,
          hw.sender.trans (core_id hc), hw.positive, hsem.trans hw.used, hcut⟩
      · exact Or.inl (hmsg.trans hnil)

/-! ### The call of `handleRequests` -/

/-- The two queues are the same, and `check` has not been called. -/
def SameMail (s s' : RRState) : Prop :=
  s'.requests = s.requests ∧ s'.reqMsgq = s.reqMsgq ∧ s'.checks = s.checks

theorem onMem_mail (s : RRState) (r : Except Fault Mem) :
    Outcome (SameMail s) (fun _ => True) (s.onMem r) := by
  cases r with
  | error e => trivial
  | ok m => exact ⟨rfl, rfl, rfl⟩

theorem logData_mail (s : RRState) (t : ℤ) (p : Ptr) :
    Outcome (SameMail s) (fun _ => True) (s.logData t p) := by
  rw [logData]
  cases s.pcb p with
  | error e => trivial
  | ok x => exact ⟨rfl, rfl, rfl⟩

theorem SameMail.trans {s₁ s₂ s₃ : RRState} (h : SameMail s₁ s₂) (h' : SameMail s₂ s₃) :
    SameMail s₁ s₃ :=
  ⟨h'.1.trans h.1, h'.2.1.trans h.2.1, h'.2.2.trans h.2.2⟩

theorem resolveMiss_mail (clk : Clk) (s : RRState) (p : Ptr) (page : ℤ) (req : Request) :
    Outcome (SameMail s) (fun _ => True) (s.resolveMiss clk p page req) := by
  rw [resolveMiss]
  cases s.pcb p with
  | error e => trivial
  | ok x =>
    refine (onMem_mail s _).bind fun s₁ h₁ => Outcome.ite (fun _ => ?_) fun _ => h₁
    rw [switchFrom]
    cases s₁.pcb p with
    | error e => trivial
    | ok y =>
      rw [ok_bind]
      split_ifs <;> exact h₁

/-- What is done about a miss does not touch the queues. -/
theorem handleMiss_mail (clk : Clk) (s : RRState) (p : Ptr) (page : ℤ) (req : Request) :
    Outcome (SameMail s) (fun _ => True) (s.handleMiss clk p page req) := by
  rw [handleMiss]
  refine Outcome.ite (fun _ => ?_) fun _ => ?_
  · have hblock : Outcome (SameMail s) (fun _ => True) (s.blockCurrent clk p) :=
      (onMem_mail s _).bind fun s₁ h₁ => (logData_mail s₁ _ p).bind fun s₂ h₂ =>
        (onMem_mail s₂ _).bind fun s₃ h₃ => (h₁.trans h₂).trans h₃
    exact hblock.bind fun s₁ h₁ => (resolveMiss_mail clk s₁ p page req).mono fun _ h₂ =>
      h₁.trans h₂
  · have hblock : Outcome (fun r => ∀ q s', r = some (q, s') → SameMail s s') (fun _ => True)
        (s.blockReady p) := by
      rw [blockReady]
      cases s.pcb p with
      | error e => trivial
      | ok x =>
        rw [ok_bind]
        cases Queue.dequeueById s.idOf x.id s.readyQueue with
        | error e => trivial
        | ok r =>
          cases r with
          | none => rintro q s' ⟨⟩
          | some r =>
            obtain ⟨q, rest⟩ := r
            refine (onMem_mail ({ s with readyQueue := rest } : RRState) _).bind fun s₁ h₁ => ?_
            rintro q' s' h
            obtain ⟨-, rfl⟩ := Prod.mk.inj (Option.some.inj h)
            exact h₁
    refine hblock.bind fun r hr => ?_
    cases r with
    | none => exact ⟨rfl, rfl, rfl⟩
    | some r =>
      obtain ⟨q, s₁⟩ := r
      exact (resolveMiss_mail clk s₁ q page req).mono fun _ h₂ => (hr q s₁ rfl).trans h₂

/-- **At a miss of the running process** the fault handler is called for its page. The process is
blocked, and nobody is running. -/
theorem handleMiss_switches (hp : s.currProcess = some p) (hx : s.heap p = some x) {page : ℤ}
    {req : Request} (hs : s.handleMiss clk p page req = .ok s') :
    s'.currProcess = none ∧ s'.blockQueue = s.blockQueue ++ [p] ∧
      ∃ m, (s.toMem.withPcb p (s.blockedPcb clk x)).faultHandler clk x.id page .demand req.address
        req.operation = .ok m ∧ s'.toMem = { m with currProcess := none } := by
  have hy : (s.toMem.withPcb p (s.blockedPcb clk x)).heap p = some (s.blockedPcb clk x) :=
    withPcb_heap_self ..
  rw [handleMiss, if_pos hp, blockCurrent_eq clk hx, ok_bind, resolveMiss, pcb_eq hy, ok_bind] at hs
  obtain ⟨s₁, h₁, hs⟩ := bind_eq_ok.mp hs
  obtain ⟨m, hm, h₁⟩ := bind_eq_ok.mp h₁
  obtain rfl := Except.ok.inj h₁
  have hsame := ((faultHandler_keeps clk _ x.id page .demand req.address req.operation).of_ok
    hm).sameCore
  obtain ⟨z, hz, -⟩ := hsame.symm.pcb hy
  have hcur : m.currProcess = some p := hsame.cur.trans hp
  rw [if_pos hcur, switchFrom_outcome clk hz] at hs
  obtain rfl := Except.ok.inj hs
  exact ⟨rfl, rfl, m, hm, rfl⟩

/-- What is done about a request, once `check` has answered. -/
def answer (clk : Clk) (s : RRState) (p : Ptr) (req : Request) : CheckResult → Except Fault RRState
  | .miss => s.handleMiss clk p (parseHexaAddress req.address).page req
  | .hit | .invalid => .ok s

theorem answer_mail (clk : Clk) (s : RRState) (p : Ptr) (req : Request) (r : CheckResult) :
    Outcome (SameMail s) (fun _ => True) (s.answer clk p req r) := by
  cases r with
  | miss => exact handleMiss_mail clk s p _ req
  | hit | invalid => exact ⟨rfl, rfl, rfl⟩

/-- **A request that is due** leaves the queue and is passed to `check`. -/
theorem serveRequest_due (clk : Clk) {req : Request} (hreq : s.requests = [req])
    (hdue : req.tick ≤ clk .reqDue) (p : Ptr) : s.serveRequest clk req p =
      s.check p (parseHexaAddress req.address).page req.operation >>= fun r =>
        { s with toMem := r.2, requests := [], checks := s.checks ++ [(p, req, r.1)] }.answer
          clk p req r.1 := by
  rw [serveRequest]
  cases s.check p (parseHexaAddress req.address).page req.operation with
  | error e => rfl
  | ok r =>
    obtain ⟨result, m⟩ := r
    simp only [ok_bind, if_pos hdue, hreq, Queue.dequeue_cons]
    cases result <;> rfl

theorem handleRequests_running (clk : Clk) (hp : s.currProcess = some p) (hx : s.heap p = some x) :
    s.handleRequests clk = (s.fetched clk).checkReqs clk := by
  rw [handleRequests, hp, fetched, hp, Option.bind_some, hx]
  simp only [pcb_eq hx, ok_bind]

theorem fetched_nil (clk : Clk) (h : s.reqMsgq = []) : s.fetched clk = s := by
  have hrcv : ∀ id, MsgQueue.rcv Request.mtype id s.reqMsgq = none := by
    intro id
    rw [h, MsgQueue.rcv]
    split_ifs <;> rfl
  rw [fetched]
  split
  · rfl
  · rw [fetchRequest, hrcv]

/-- The message that waits is fetched, and stamped. -/
theorem Waiting.fetched {req : Request} (h : Waiting s p x req) (clk : Clk) :
    s.fetched clk = { s with
      reqMsgq := []
      requests := Queue.enqueue s.requests { req with tick := clk .reqTick } } := by
  have hid : 0 < x.id := h.sender ▸ h.positive
  have hrcv : MsgQueue.rcv Request.mtype x.id s.reqMsgq = some (req, []) := by
    rw [h.queue, MsgQueue.rcv, if_neg hid.ne', if_pos hid, MsgQueue.takeType, if_pos h.sender]
  rw [RRState.fetched, h.cur, Option.bind_some, h.pcb]
  simp only [fetchRequest, hrcv]

/-- A message that is received. -/
def stamp (clk : Clk) (req : Request) : Request := { req with tick := clk .reqTick }

/-- Its sender is its owner. -/
theorem Waiting.owner {req : Request} (h : Waiting s p x req) (hwf : s.toMem.Wf) :
    s.getProcess req.mtype = .ok (some p) := by
  rw [h.sender]
  exact getProcess_live hwf ⟨hwf.cur h.cur, h.pcb⟩

/-- **The message that waits is passed to `check`** for its sender, and the answer decides what is
done. -/
theorem Waiting.served {req : Request} (h : Waiting s p x req) (hwf : s.toMem.Wf)
    (hempty : s.requests = []) (hdue : clk .reqTick ≤ clk .reqDue) : s.handleRequests clk =
      s.check p (parseHexaAddress req.address).page req.operation >>= fun r =>
        { s with
          toMem := r.2, reqMsgq := [], requests := []
          checks := s.checks ++ [(p, stamp clk req, r.1)] }.answer clk p (stamp clk req) r.1 := by
  have hfetched : s.fetched clk = { s with reqMsgq := [], requests := [stamp clk req] } := by
    rw [h.fetched, hempty]
    rfl
  have hreq : (s.fetched clk).requests = [stamp clk req] := by rw [hfetched]
  have howner : (s.fetched clk).getProcess (stamp clk req).mtype = .ok (some p) := by
    rw [hfetched]
    exact h.owner hwf
  have hcheck : (s.fetched clk).checkReqs clk =
      (s.fetched clk).serveRequest clk (stamp clk req) p := by
    rw [checkReqs, hreq, Queue.isEmpty_cons]
    simp only [Bool.false_eq_true, if_false, Queue.peek, ok_bind, howner]
  rw [handleRequests_running clk h.cur h.pcb, hcheck, serveRequest_due clk hreq hdue, hfetched]
  rfl

/-- Without a message, nothing is done. -/
theorem handleRequests_nil (hwf : s.toMem.Wf) (hempty : s.requests = []) (hnil : s.reqMsgq = [])
    (clk : Clk) : s.handleRequests clk = .ok s := by
  cases hp : s.currProcess with
  | none => simp only [RRState.handleRequests, hp]
  | some p =>
    obtain ⟨x, hx⟩ := hwf.alloc (hwf.cur hp)
    rw [handleRequests_running clk hp hx, fetched_nil clk hnil, checkReqs, hempty,
      Queue.isEmpty_nil, if_pos rfl]

/-- A request and whose it is, without the tick, which is overwritten when it is received. -/
def letter (a : Ptr × Request) : Ptr × ℤ × List Char × Char :=
  (a.1, a.2.mtype, a.2.address, a.2.operation)

/-- The requests that have been passed to `check`, with their owners. -/
def served (s : RRState) : List (Ptr × Request) := s.checks.map fun c => (c.1, c.2.1)

/-- What has been sent by the running process and not been received. -/
def unread (s : RRState) : List (Ptr × Request) :=
  match s.currProcess with
  | none => []
  | some p => s.reqMsgq.map (p, ·)

theorem unread_nil (h : s.reqMsgq = []) : s.unread = [] := by
  rw [unread, h]
  split <;> rfl

/-- **`handleRequests` leaves both queues empty**, and what was unread has been served. -/
theorem Tidy.handleRequests (h : Tidy s) (hwf : s.toMem.Wf) (hdue : clk .reqTick ≤ clk .reqDue) :
    Outcome (fun s' => s'.requests = [] ∧ s'.reqMsgq = [] ∧
      (s.served ++ s.unread).map letter = s'.served.map letter) (fun _ => True)
      (s.handleRequests clk) := by
  rcases h.post with hnil | ⟨p, x, req, hw⟩
  · rw [handleRequests_nil hwf h.empty hnil, unread_nil hnil, List.append_nil]
    exact ⟨h.empty, hnil, rfl⟩
  · rw [hw.served hwf h.empty hdue]
    cases s.check p (parseHexaAddress req.address).page req.operation with
    | error e => trivial
    | ok r =>
      refine (answer_mail clk _ p _ r.1).mono fun s' hs' => ⟨hs'.1, hs'.2.1, ?_⟩
      rw [unread, hw.cur, hw.queue, RRState.served, RRState.served, hs'.2.2, List.map_append,
        List.map_append, List.map_append]
      rfl

/-! ### The turns -/

/-- A dispatch makes the first ready process the only one whose child may move. -/
theorem Dispatches.quiet (hd : Dispatches P clk s s') (h : Quiet none s.child) :
    Quiet s'.currProcess s'.child := by
  cases hd with
  | @intro p x m rest line hq hx hstart hm hline =>
    have hcur : m.currProcess = some p := hm.cur
    show Quiet m.currProcess _
    rw [hcur]
    exact h.running _ (Or.inl rfl)

/-- The child of a process that is stopped. -/
theorem stopped_child (s : RRState) (p : Ptr) :
    ∀ c ∈ (s.child p).map fun c => { c with stopped := true },
      c.stopped = true ∨ c.exited = true := by
  intro c hc
  obtain ⟨c', -, rfl⟩ := Option.mem_map.mp hc
  exact Or.inl rfl

theorem Decides.quiet (hd : Decides K P clk s s') (h : Quiet s.currProcess s.child) :
    Quiet s'.currProcess s'.child := by
  cases hd with
  | stay => exact h
  | extend hp => exact h
  | @preempt p x s₁ _ hp hx hdue hwait hu hheld hbefore hd =>
    obtain ⟨m, u, b, n, hm, -, rfl⟩ := hu
    refine hd.quiet ?_
    exact (hp ▸ h : Quiet (some p) s.child).update (stopped_child s p)
  | dispatch hp hd => exact hd.quiet (hp ▸ h)

/-- What `RR_algo` leaves alone. -/
theorem Decides.mail (hd : Decides K P clk s s') :
    SameMail s s' ∧ s'.sem = s.sem ∧ s'.pc = s.pc := by
  obtain ⟨m, r, b, n, t, u, k, rt, log, ch, c, rfl⟩ := hd.frame
  exact ⟨⟨rfl, rfl, rfl⟩, rfl, rfl⟩

/-- **A turn keeps the queues tidy**, if the children have done what they can do when it
begins. -/
theorem Turn.tidy (ht : Turn K P clk s s') (h : Tidy s)
    (hprompt : s.pc = .top → clk .now ≠ s.lastTick → ∀ p, s.childStep p = none)
    (hpid : s.pc = .requests → ∀ p x, s.currProcess = some p → s.heap p = some x → 0 < x.pid)
    (hserved : s.pc = .requests → s'.requests = [] ∧ s'.reqMsgq = []) : Tidy s' := by
  -- inside a turn, most phases change nothing that the children see
  have hgo : ∀ {pc : Pc} (s₁ : RRState), s.pc = pc → pc.inTurn = true → pc.mayWait = false →
      s₁.pc ≠ .exited → SameCore s.toMem s₁.toMem → s₁.child = s.child → s₁.sem = s.sem →
      s₁.requests = s.requests → s₁.reqMsgq = s.reqMsgq → Tidy s₁ := by
    intro pc s₁ hpc hin hcut hne hm hch hsem hreq hmsg
    exact h.goto hm hch hsem hreq hmsg (fun _ => h.still (hpc ▸ hin)) (fun he => absurd he hne)
      fun hw => absurd ((hpc ▸ hcut).symm.trans hw) (by simp)
  cases ht with
  | exit hpc _ _ _ hcur =>
    refine h.goto (SameCore.refl _) rfl rfl rfl rfl (by rintro ⟨⟩) (fun _ => hcur) fun _ =>
      Or.inr ?_
    rcases h.post with hnil | ⟨p, x, req, hw⟩
    · exact hnil
    · exact absurd (hcur.symm.trans hw.cur) (by simp)
  | spin hpc => exact h
  | tick hpc hnew =>
    exact h.goto (SameCore.refl _) rfl rfl rfl rfl (fun _ => still_of_prompt (hprompt hpc hnew))
      (by simp) fun _ => Or.inl rfl
  | idle hpc hcur =>
    obtain ⟨hreq, hmsg⟩ := hserved hpc
    exact ⟨h.quiet, h.one, fun _ => h.still (by rw [hpc]; rfl), (by simp), hreq, Or.inl hmsg⟩
  | @serve s₁ hpc hcur hs =>
    obtain ⟨hreq, hmsg⟩ := hserved hpc
    have hstill : Still s.child s.sem := h.still (by rw [hpc]; rfl)
    obtain ⟨rq, mq, hf⟩ := fetched_eq clk s
    rw [hf] at hs
    cases hs with
    | keep hd hm hrq =>
      refine ⟨?_, h.one, fun _ => hstill, (by simp), hreq, Or.inl hmsg⟩
      exact hm.cur ▸ h.quiet
    | block hx hd hf hm hrq =>
      refine ⟨?_, h.one, fun _ => hstill, (by simp), hreq, Or.inl hmsg⟩
      exact hm.cur ▸ h.quiet
    | @switch m rq ck p x page raw op hp hx hd hf hm hrq =>
      have hq : Quiet (some p) s.child := hp ▸ h.quiet
      have hchild : (if x.pid > 0 then (s.signal p true).child else s.child) =
          Function.update s.child p ((s.child p).map fun c => { c with stopped := true }) :=
        if_pos (hpid hpc p x hp hx)
      refine ⟨?_, h.one, fun _ => ?_, (by simp), hreq, Or.inl hmsg⟩
      · show Quiet none (if x.pid > 0 then (s.signal p true).child else s.child)
        rw [hchild]
        exact hq.update (stopped_child s p)
      · show Still (if x.pid > 0 then (s.signal p true).child else s.child) s.sem
        rw [hchild]
        exact hstill.update (stopped_child s p)
  | firstScan hpc hu =>
    obtain ⟨m, u, b, n, hm, -, rfl⟩ := hu
    exact hgo _ hpc rfl rfl (by simp) hm rfl rfl rfl rfl
  | finish hpc hcur hsig =>
    exact hgo _ hpc rfl rfl (by simp) (SameCore.refl _) rfl rfl rfl rfl
  | unfinished hpc hnot =>
    exact hgo _ hpc rfl rfl (by simp) (SameCore.refl _) rfl rfl rfl rfl
  | @reap m p x hpc hcur hx hwait hr =>
    have hq : Quiet (some p) s.child := hcur ▸ h.quiet
    have hnone : ∀ c ∈ (none : Option Child), c.stopped = true ∨ c.exited = true := (by simp)
    exact ⟨hq.update hnone, h.one, fun _ => (h.still (by rw [hpc]; rfl)).update hnone, (by simp),
      h.empty, Or.inl (h.nothing (by rw [hpc]; rfl))⟩
  | shut hpc hset hlt =>
    refine h.goto (SameCore.refl _) rfl rfl rfl rfl (by rintro ⟨⟩) (by simp) fun _ => Or.inl rfl
  | listen hpc hopen hrec hnow =>
    exact hgo _ hpc rfl rfl (by simp) (SameCore.refl _) rfl rfl rfl rfl
  | skip hpc hopen hnot =>
    exact hgo _ hpc rfl rfl (by simp) (SameCore.refl _) rfl rfl rfl rfl
  | @arrive d rest hpc hrcv hd =>
    have hne : s.pc ≠ .exited := by
      rw [hpc]
      simp
    exact ⟨h.quiet, h.one, h.still, (fun he => absurd he hne), h.empty,
      Or.inl (h.nothing (by rw [hpc]; rfl))⟩
  | sync hpc hrcv hd hnow =>
    exact hgo _ hpc rfl rfl (by simp) (SameCore.refl _) rfl rfl rfl rfl
  | last hpc hrcv hd =>
    exact hgo _ hpc rfl rfl (by simp) (SameCore.refl _) rfl rfl rfl rfl
  | drop hpc hrcv h1 h5 h2 =>
    exact hgo _ hpc rfl rfl (by simp [hpc]) (SameCore.refl _) rfl rfl rfl rfl
  | @algo s₁ m print cl hpc hd hm _ =>
    have hnil : s.reqMsgq = [] := h.nothing (by rw [hpc]; rfl)
    have h₁ : Quiet s₁.currProcess s₁.child ∧ SameMail s s₁ ∧ s₁.sem = s.sem := by
      rcases hd with ⟨-, hd⟩ | ⟨-, rfl⟩
      · exact ⟨hd.quiet h.quiet, hd.mail.1, hd.mail.2.1⟩
      · exact ⟨h.quiet, ⟨rfl, rfl, rfl⟩, rfl⟩
    obtain ⟨hquiet, ⟨hreq, hmsg, -⟩, hsem⟩ := h₁
    have hquiet' : Quiet m.currProcess s₁.child := hm.cur ▸ hquiet
    have hone : s₁.sem ≤ 1 := hsem ▸ h.one
    rw [permit]
    split_ifs
    · exact ⟨hquiet', le_rfl, by rintro ⟨⟩, by simp, hreq.trans h.empty, Or.inl (hmsg.trans hnil)⟩
    · exact ⟨hquiet', hone, by rintro ⟨⟩, by simp, hreq.trans h.empty, Or.inl (hmsg.trans hnil)⟩
  | lastScan hpc hu =>
    obtain ⟨m, u, b, n, hm, -, rfl⟩ := hu
    exact h.goto hm rfl rfl rfl rfl (by rintro ⟨⟩) (by simp) fun _ => Or.inl rfl

/-- The queues are touched at the beginning of a turn only. -/
theorem Turn.mail (ht : Turn K P clk s s') (hpc : s.pc ≠ .requests) : SameMail s s' := by
  cases ht with
  | idle hpc' _ | serve hpc' _ _ => exact absurd hpc' hpc
  | firstScan _ hu | lastScan _ hu =>
    obtain ⟨m, u, b, n, hm, -, rfl⟩ := hu
    exact ⟨rfl, rfl, rfl⟩
  | @algo s₁ m print cl _ hd hm _ =>
    have h₁ : SameMail s s₁ := by
      rcases hd with ⟨-, hd⟩ | ⟨-, rfl⟩
      · exact hd.mail.1
      · exact ⟨rfl, rfl, rfl⟩
    rw [permit]
    split_ifs <;> exact h₁
  | _ => exact ⟨rfl, rfl, rfl⟩

/-! ### The children -/

/-- A child sends at most one message, which bears its id. -/
theorem requestOf_cases (c : Child) : (requestOf c).1 = [] ∨
    ∃ req, (requestOf c).1 = [req] ∧ req.mtype = c.id ∧ 1 ≤ req.mtype := by
  rw [requestOf]
  split
  · exact Or.inl rfl
  · split_ifs with hdue hid
    · exact Or.inr ⟨_, rfl, rfl, hid⟩
    · exact Or.inl rfl
    · exact Or.inl rfl

/-- A child that moves is the one of the running process, and does so between two turns. -/
theorem Tidy.mover (h : Tidy s) (hst : s.childStep p = some s') :
    s.currProcess = some p ∧ s.pc.inTurn = false ∧ s.pc ≠ .exited := by
  obtain ⟨c, hc, hgo, hex, hmove⟩ := childStep_cases hst
  have hcur : s.currProcess = some p := by
    by_contra hne
    rcases h.quiet p c hc hne with hs | he
    · exact nomatch hgo.symm.trans hs
    · exact nomatch hex.symm.trans he
  refine ⟨hcur, Bool.eq_false_iff.mpr fun hin => ?_,
    fun hpc => nomatch hcur.symm.trans (h.left hpc)⟩
  rcases h.still hin p c hc with hs | he | ⟨hpos, hsem⟩
  · exact nomatch hgo.symm.trans hs
  · exact nomatch hex.symm.trans he
  · rcases hmove with ⟨hdone, -⟩ | ⟨-, hsem', -⟩
    · omega
    · omega

/-- **A child keeps the queues tidy**: it sends its message on its only permit. -/
theorem childStep_tidy (hst : s.childStep p = some s') (hs : Started s) (h : Tidy s) : Tidy s' := by
  obtain ⟨hcur, hin, hne⟩ := h.mover hst
  obtain ⟨c, hc, hgo, hex, hmove⟩ := childStep_cases hst
  have hquiet : ∀ c', Quiet s.currProcess (Function.update s.child p (some c')) := by
    intro c'
    rw [hcur]
    exact h.quiet.running _ (Or.inr hcur)
  rcases hmove with ⟨hdone, rfl⟩ | ⟨hpos, hsem, rfl⟩
  · refine ⟨hquiet _, h.one, (fun hin' => nomatch hin.symm.trans hin'), h.left, h.empty, ?_⟩
    rcases h.post with hnil | ⟨q, x, req, hw⟩
    · exact Or.inl hnil
    · exact Or.inr ⟨q, x, req, hw.queue, hw.cur, hw.pcb, hw.sender, hw.positive, hw.used, hw.cut⟩
  · have hone : s.sem - 1 = 0 := by
      have := h.one
      omega
    have hnil : s.reqMsgq = [] := by
      rcases h.post with hnil | ⟨q, x, req, hw⟩
      · exact hnil
      · have := hw.used
        omega
    refine ⟨hquiet _, ?_, (fun hin' => nomatch hin.symm.trans hin'), h.left, h.empty, ?_⟩
    · show s.sem - 1 ≤ 1
      omega
    · rcases requestOf_cases c with hnone | ⟨req, hreq, hid, hpos⟩
      · exact Or.inl (by rw [childTick, hnone, hnil]; rfl)
      · obtain ⟨x, hx, hxid, -⟩ := hs.child p c hc
        refine Or.inr ⟨p, x, req, ?_, hcur, hx, hid.trans hxid.symm, hpos, hone, ?_⟩
        · show s.reqMsgq ++ (requestOf c).1 = [req]
          rw [hnil, hreq]
          rfl
        · show s.pc.mayWait = true
          cases hpc : s.pc <;> rw [hpc] at hin hne
          case top | last => rfl
          case exited => exact absurd rfl hne
          all_goals exact nomatch hin

/-! ### Process ids -/

/-- The process id of a process that has been started is its own. -/
def Numbered (m : Mem) : Prop := ForallHeap (fun p x => x.pid = -1 ∨ x.pid = (p : ℤ) + 1) m

theorem Turn.numbered (ht : Turn K P clk s s') (h : Numbered s.toMem) : Numbered s'.toMem := by
  refine ht.forall_heap (fun p x y hc hx => ?_) (fun _ _ _ hx => hx) (fun _ p x hx => ?_)
    (fun _ _ _ => Or.inl rfl) h
  · rw [(core_eq hc).2.2.2.2.2.2.2.1]
    exact hx
  · unfold PCB.dispatched PCB.stamped
    split_ifs with hp hs hs
    · exact Or.inr rfl
    · exact Or.inr rfl
    · exact hx
    · exact hx

end RRState

namespace World

open RRState Mem Fallible

variable {P : Params} {adm : ProcessData → Prop} {w w' : World} {e : Event}

/-- The clock does not go back between the two readings of `handleRequests`. -/
def InOrder (_ : World) : Event → Prop
  | .sched clk _ => clk .reqTick ≤ clk .reqDue
  | _ => True

theorem reachable_numbered (h : (system P).Reachable w) : Numbered w.rr.toMem := by
  refine h.invariant_of (J := Inv (fun _ => True) fun _ => True)
    (P := fun w => Numbered w.rr.toMem) (fun _ => reachable_inv) ?_ ?_
  · rintro w ⟨l, t, -, -, -, rfl⟩
    exact fun p x hx => nomatch hx
  · rintro w w' hi h ⟨e, hst⟩
    cases hst with
    | sched _ hs => exact (hi.turn hs).numbered h
    | child hs =>
      obtain ⟨c, -, -, -, ⟨-, rfl⟩ | ⟨-, -, rfl⟩⟩ := childStep_cases hs <;> exact h
    | _ => exact h

/-- The call of `handleRequests` in a step. -/
theorem served_empty {clk : Clk} {s : RRState} (h : Tidy w.rr) (hwf : w.rr.toMem.Wf)
    (hdue : clk .reqTick ≤ clk .reqDue) (hpc : w.rr.pc = .requests)
    (hs : w.rr.phase P clk = .ok s) : s.requests = [] ∧ s.reqMsgq = [] ∧
      (w.rr.served ++ w.rr.unread).map letter = s.served.map letter := by
  rw [phase, hpc] at hs
  obtain ⟨s₁, hs₁, hs⟩ := bind_eq_ok.mp hs
  obtain rfl := Except.ok.inj hs
  have hempty := (h.handleRequests hwf hdue).of_ok hs₁
  exact hempty

/-- **Every step keeps the queues tidy.** -/
theorem Step.tidy (hst : Step P e w w') (hprompt : Prompt w e) (horder : InOrder w e)
    (hi : Inv (fun _ => True) (fun _ => True) w) (hs : Started w.rr) (hn : Numbered w.rr.toMem)
    (h : Tidy w.rr) : Tidy w'.rr := by
  cases hst with
  | @sched _ clk s t _ hphase =>
    refine (hi.turn hphase).tidy h hprompt (fun _ p x hp hx => ?_) fun hpc =>
      (served_empty h hi.held.wf horder hpc hphase).imp_right And.left
    -- a process that is running has been started
    obtain ⟨i, y, hy, -, hpid⟩ := hs.running p hp
    obtain rfl := Option.some.inj (hx.symm.trans hy)
    have := (hn p x hx).resolve_left hpid
    omega
  | child hchild => exact childStep_tidy hchild hs h
  | _ => exact h.goto (SameCore.refl _) rfl rfl rfl rfl h.still h.left Or.inl

/-! ### Sent and served -/

/-- What is sent in a step: the message of the child that moves. -/
def sending (w : World) : Event → List (Ptr × Request)
  | .child p =>
    match w.rr.child p with
    | none => []
    | some c => if c.remainingtime > 0 then (requestOf c).1.map (p, ·) else []
  | _ => []

/-- A state of the system, and what has been sent so far. -/
structure Mailed where
  world : World
  sent : List (Ptr × Request)

/-- The runs with prompt children, recorded. -/
def mailed (P : Params) : TransitionSystem Mailed where
  init a := (system P).init a.world ∧ a.sent = []
  step a b := ∃ e, Step P e a.world b.world ∧ (Prompt a.world e ∧ InOrder a.world e) ∧
    b.sent = a.sent ++ sending a.world e

/-- Nothing is received but at the beginning of a turn. -/
theorem unread_turn {K : Mem → Prop} {clk : Clk} {s : RRState} (ht : Turn K P clk w.rr s)
    (h : Tidy w.rr) (hpc : w.rr.pc ≠ .requests) :
    s.unread = w.rr.unread ∧ s.served = w.rr.served := by
  obtain ⟨-, hmsg, hchecks⟩ := ht.mail hpc
  refine ⟨?_, by rw [RRState.served, hchecks, RRState.served]⟩
  rcases h.post with hnil | ⟨p, x, req, hw⟩
  · rw [unread_nil hnil]
    exact unread_nil (hmsg.trans hnil)
  · have hcut := hw.cut
    cases ht with
    | exit _ _ _ _ hcur => exact absurd (hcur.symm.trans hw.cur) (by simp)
    | spin hpc => rfl
    | tick hpc hnew => rfl
    | lastScan hpc hu =>
      obtain ⟨m, u, b, n, hm, -, rfl⟩ := hu
      have hcur : m.currProcess = w.rr.currProcess := hm.cur
      simp only [unread, hcur]
    | idle hpc' _ | serve hpc' _ _ => exact absurd hpc' hpc
    | _ hpc' =>
      rw [hpc'] at hcut
      cases hcut

/-- **What is sent is served or unread**: the record of a step. -/
theorem Step.letters (hst : Step P e w w') (hprompt : Prompt w e) (horder : InOrder w e)
    (hi : Inv (fun _ => True) (fun _ => True) w) (h : Tidy w.rr) :
    (w.rr.served ++ w.rr.unread ++ sending w e).map letter =
      (w'.rr.served ++ w'.rr.unread).map letter := by
  cases hst with
  | @sched _ clk s t _ hphase =>
    show (w.rr.served ++ w.rr.unread ++ []).map letter = (s.served ++ s.unread).map letter
    rw [List.append_nil]
    by_cases hpc : w.rr.pc = .requests
    · obtain ⟨-, hmsg, hserved⟩ := served_empty h hi.held.wf horder hpc hphase
      rw [hserved, unread_nil hmsg, List.append_nil]
    · obtain ⟨hunread, hserved⟩ := unread_turn (hi.turn hphase) h hpc
      rw [hunread, hserved]
  | @child _ p s hchild =>
    obtain ⟨hcur, -, -⟩ := h.mover hchild
    obtain ⟨c, hc, -, -, ⟨hdone, rfl⟩ | ⟨hpos, -, rfl⟩⟩ := childStep_cases hchild
    · simp only [sending, hc]
      rw [if_neg (by omega), List.append_nil]
      rfl
    · simp only [sending, hc]
      rw [if_pos hpos]
      simp only [RRState.served, unread, childTick, hcur, List.map_append, List.append_assoc]
  | _ => exact congrArg (List.map letter) (List.append_nil _)

/-! ### The result -/

/-- **Each request is served once, for its sender.** -/
structure Serviced (a : Mailed) : Prop where
  /-- The queue in memory is empty in front of every call of `handleRequests`, and so are
  both queues after it. -/
  empty : a.world.rr.requests = []
  call : a.world.rr.pc = .requests → ∀ clk s, clk .reqTick ≤ clk .reqDue →
    a.world.rr.handleRequests clk = .ok s → s.requests = [] ∧ s.reqMsgq = []
  /-- A message that waits is the only one, and was sent by the running process since its last
  turn. -/
  only : a.world.rr.reqMsgq.length ≤ 1
  sender : ∀ req ∈ a.world.rr.reqMsgq, ∃ p x, a.world.rr.currProcess = some p ∧
    a.world.rr.heap p = some x ∧ req.mtype = x.id ∧ a.world.rr.pc.mayWait = true
  /-- It is passed to `check` at the beginning of the turn, with its sender as the owner and
  as the running process, and leaves both queues. A hit or an address that is out of range changes
  nothing else, -/
  passed : a.world.rr.pc = .requests → ∀ clk, clk .reqTick ≤ clk .reqDue →
    ∀ req ∈ a.world.rr.reqMsgq, ∃ p, a.world.rr.currProcess = some p ∧
      a.world.rr.handleRequests clk =
        a.world.rr.check p (parseHexaAddress req.address).page req.operation >>= fun r =>
          { a.world.rr with
            toMem := r.2, reqMsgq := [], requests := []
            checks := a.world.rr.checks ++ [(p, stamp clk req, r.1)] }.answer clk p
              (stamp clk req) r.1
  /-- and at a miss the process is blocked, its page is loaded, and nobody is running. -/
  missed : a.world.rr.pc = .requests → ∀ clk s, clk .reqTick ≤ clk .reqDue →
    a.world.rr.handleRequests clk = .ok s → ∀ req ∈ a.world.rr.reqMsgq, ∀ p x,
      a.world.rr.currProcess = some p → a.world.rr.heap p = some x → ∀ m,
      a.world.rr.check p (parseHexaAddress req.address).page req.operation = .ok (.miss, m) →
        s.currProcess = none ∧ s.blockQueue = a.world.rr.blockQueue ++ [p] ∧
          ∃ m', (m.withPcb p (a.world.rr.blockedPcb clk x)).faultHandler clk x.id
            (parseHexaAddress req.address).page .demand req.address req.operation = .ok m' ∧
            s.toMem = { m' with currProcess := none }
  /-- The first request always has an owner, and it is the running process. -/
  owned : a.world.rr.pc = .requests → ∀ clk req rest,
    (a.world.rr.fetched clk).requests = req :: rest → ∃ p, a.world.rr.currProcess = some p ∧
      (a.world.rr.fetched clk).getProcess req.mtype = .ok (some p)
  /-- What has been passed to `check` is what has been sent, in this order, but for what is
  unread. -/
  once : a.sent.map letter = (a.world.rr.served ++ a.world.rr.unread).map letter

/-- What a tidy state says about the next call. -/
theorem serviced_of_tidy {a : Mailed} (h : Tidy a.world.rr) (hwf : a.world.rr.toMem.Wf)
    (honce : a.sent.map letter = (a.world.rr.served ++ a.world.rr.unread).map letter) :
    Serviced a := by
  -- the message that waits is the one of the running process
  have hwait : ∀ req ∈ a.world.rr.reqMsgq, ∃ p x, Waiting a.world.rr p x req := by
    intro req hreq
    rcases h.post with hnil | ⟨p, x, req', hw⟩
    · rw [hnil] at hreq
      exact absurd hreq List.not_mem_nil
    · obtain rfl := List.mem_singleton.mp (hw.queue ▸ hreq)
      exact ⟨p, x, hw⟩
  refine ⟨h.empty, fun _ clk s hdue hs => ?_, ?_, fun req hreq => ?_,
    fun hpc clk hdue req hreq => ?_, fun hpc clk s hdue hs req hreq p x hp hx m hmiss => ?_,
    fun hpc clk req rest hreq => ?_, honce⟩
  · obtain ⟨hreq, hmsg, -⟩ := (h.handleRequests hwf hdue).of_ok hs
    exact ⟨hreq, hmsg⟩
  · rcases h.post with hnil | ⟨p, x, req, hw⟩
    · rw [hnil]
      exact Nat.zero_le _
    · rw [hw.queue]
      exact le_rfl
  · obtain ⟨p, x, hw⟩ := hwait req hreq
    exact ⟨p, x, hw.cur, hw.pcb, hw.sender, hw.cut⟩
  · obtain ⟨p, x, hw⟩ := hwait req hreq
    exact ⟨p, hw.cur, hw.served hwf h.empty hdue⟩
  · obtain ⟨q, y, hw⟩ := hwait req hreq
    obtain rfl := Option.some.inj (hp.symm.trans hw.cur)
    rw [hw.served hwf h.empty hdue, hmiss, ok_bind, answer] at hs
    obtain rfl := check_miss_same hmiss
    let s₁ : RRState := { a.world.rr with
      reqMsgq := [], requests := []
      checks := a.world.rr.checks ++ [(p, stamp clk req, .miss)] }
    exact handleMiss_switches (s := s₁) hp hx hs
  · rcases h.post with hnil | ⟨p, x, req', hw⟩
    · rw [fetched_nil clk hnil, h.empty] at hreq
      exact absurd hreq (List.cons_ne_nil _ _).symm
    · rw [hw.fetched, h.empty] at hreq ⊢
      obtain ⟨rfl, -⟩ := List.cons.inj hreq
      exact ⟨p, hw.cur, hw.owner hwf⟩

theorem mailed_reachable {a : Mailed} (h : (mailed P).Reachable a) :
    (system P).Reachable a.world := by
  refine TransitionSystem.Reachable.map (T := system P) (f := Mailed.world) ?_ ?_ h
  · rintro a ⟨ha, -⟩
    exact ha
  · rintro a b - ⟨e, hst, -⟩
    exact Or.inl ⟨e, hst⟩

/-- **Each request that is sent is served exactly once**, for its sender, at the beginning of the
next turn, in every run with prompt children. -/
theorem mailed_serviced {a : Mailed} (h : (mailed P).Reachable a) : Serviced a := by
  have hkey : ∀ {a}, (mailed P).Reachable a → Tidy a.world.rr ∧
      a.sent.map letter = (a.world.rr.served ++ a.world.rr.unread).map letter := by
    intro a ha
    induction ha with
    | @init a ha =>
      obtain ⟨⟨l, t, -, -, -, hw⟩, hsent⟩ := ha
      rw [hsent, hw]
      exact ⟨⟨by rintro q c ⟨⟩, Nat.zero_le _, by rintro ⟨⟩, by rintro ⟨⟩, rfl, Or.inl rfl⟩, rfl⟩
    | @step a b ha hst ih =>
      obtain ⟨e, hst, ⟨hprompt, horder⟩, hsent⟩ := hst
      have hw := mailed_reachable ha
      have hi := reachable_inv hw
      have hs := (reachable_asked hw).toStarted
      refine ⟨hst.tidy hprompt horder hi hs (reachable_numbered hw) ih.1, ?_⟩
      rw [hsent, List.map_append, ih.2, ← List.map_append]
      exact hst.letters hprompt horder hi ih.1
  obtain ⟨htidy, honce⟩ := hkey h
  exact serviced_of_tidy htidy (reachable_inv (mailed_reachable h)).held.wf honce

/-- Every run with prompt children can be recorded. -/
theorem exists_mailed
    (h : (systemIf P (fun _ => True) fun w e => Prompt w e ∧ InOrder w e).Reachable w) :
    ∃ a, (mailed P).Reachable a ∧ a.world = w := by
  induction h with
  | @init w h => exact ⟨⟨w, []⟩, .init ⟨h, rfl⟩, rfl⟩
  | @step w w' _ hst ih =>
    obtain ⟨e, hst, hc⟩ := hst
    obtain ⟨a, ha, rfl⟩ := ih
    exact ⟨⟨w', a.sent ++ sending a.world e⟩, ha.step ⟨e, hst, hc, rfl⟩, rfl⟩

/-- The readings of an explicit run are in order. -/
theorem inOrder_event (w : World) (mv : Move) : InOrder w mv.event := by
  cases mv with
  | sched a b => exact le_rfl
  | _ => trivial

/-- A miss of the first process and a hit of the second one have been served, and a request of
the second one, for a page it does not have, waits in front of the call of `handleRequests`. -/
theorem mailed_serviced_three : ∃ a : Mailed, a.world.rr.pc = .requests ∧
    a.world.rr.checks.map (fun c => (c.1, c.2.2)) = [(0, .miss), (1, .hit)] ∧
    a.world.rr.reqMsgq.map Request.mtype = [2] ∧ a.world.rr.blockQueue = [0] ∧ Serviced a := by
  have hrun : (playIf threeParams promptCheck (start threeAtOnce 1)
      (blockedRun ++ stepsAt 1 5)).map (fun w => (w.rr.pc,
        w.rr.checks.map (fun c => (c.1, c.2.2)), w.rr.reqMsgq.map Request.mtype,
        w.rr.blockQueue)) = some (.requests, [(0, .miss), (1, .hit)], [2], [0]) := by
    decide +kernel
  obtain ⟨w, hw, he⟩ := Option.map_eq_some_iff.mp hrun
  simp only [Prod.mk.injEq] at he
  obtain ⟨hpc, hchecks, hmsg, hblock⟩ := he
  have hstart : (systemIf threeParams (fun _ => True)
      fun w e => Prompt w e ∧ InOrder w e).Reachable (start threeAtOnce 1) :=
    .init ⟨_, 1, workload_threeAtOnce, fun _ _ => trivial, by decide, rfl⟩
  obtain ⟨a, ha, rfl⟩ := exists_mailed
    (playIf_reachable (fun w e hr hc => ⟨prompt_of_check hr hc, inOrder_event w e⟩) hstart hw)
  exact ⟨a, hpc, hchecks, hmsg, hblock, mailed_serviced ha⟩

end World

end CpuScheduler
