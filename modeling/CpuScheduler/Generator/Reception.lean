import CpuScheduler.RR.Admission
import CpuScheduler.Dual.Moves
import CpuScheduler.Generator.Dispatch

/-!
# The two receive phases

`scheduler/scheduler.c` and `rr_scheduler/rr_scheduler.c` receive the messages of the generator in
the same loop, up to a message for the tick or a later one, or up to the last message. They differ
in when they enter it.

| | `scheduler.c` | `rr_scheduler.c` |
|---|---|---|
| enters the loop | while `receivingProcesses` | and when `now > last_received_sync` |
| the tick of the loop | `now` of `main` | a `now` of its own, read later |

`CpuScheduler.Reception.schedulerTurn` and `CpuScheduler.Reception.rrTurn` are the two, over the
same messages, sent at the same moments, and the same ticks. The messages that they receive are the
same, and none is waited for behind a message for the tick, exactly when the clock and the messages
keep pace (`CpuScheduler.Reception.InStep`): between two ticks that the scheduler sees there is one
that the generator has seen, and none while the scheduler reads the clock a second time.
-/

namespace CpuScheduler

namespace Reception

/-! ### The queue between the generator and a scheduler -/

/-- What has been sent and not received, and what the generator has still to send. -/
structure Channel where
  posted : List ProcessData
  ahead : List ProcessData
deriving DecidableEq

/-- The generator sends `n` messages. -/
def Channel.post (n : ℕ) (c : Channel) : Channel where
  posted := c.posted ++ c.ahead.take n
  ahead := c.ahead.drop n

/-- `msgrcv`, which returns when `n` messages more have been sent, and not before there is one. -/
def Channel.receive (n : ℕ) (c : Channel) : Option (ProcessData × Channel) :=
  let c := c.post (if c.posted = [] then max n 1 else n)
  (MsgQueue.rcv ProcessData.mtype (-5) c.posted).map fun r => (r.1, { c with posted := r.2 })

def Channel.size (c : Channel) : ℕ := c.posted.length + c.ahead.length

/-! ### The receive loop -/

/-- What the receive phase reads and writes. `scheduler.c` does not have `last_received_sync`: it
is written and not read there. -/
structure Receiver where
  channel : Channel
  receivingProcesses : Bool
  lastReceivedSync : ℤ
  /-- The history: the messages that were received, each with the tick of the loop of `main`. -/
  received : List (ℤ × ProcessData)
deriving DecidableEq

namespace Receiver

/-- At the start. -/
def start (msgs : List ProcessData) : Receiver where
  channel := { posted := [], ahead := msgs }
  receivingProcesses := true
  lastReceivedSync := -1
  received := []

/-- A message, in the loop with this `now`: what it does, and whether it ends the loop. -/
def hear (now : ℤ) (msg : ProcessData) (s : Receiver) : Receiver × Bool :=
  if msg.mtype = 1 then (s, false)
  else if msg.mtype = 2 then
    if msg.arrival ≥ now then ({ s with lastReceivedSync := msg.arrival }, true) else (s, false)
  else if msg.mtype = 5 then ({ s with receivingProcesses := false }, true)
  else (s, false)

/-- The loop, in the turn of `main` for a tick. The receive number `i` of the run returns when
`posts i` more messages have been sent. -/
def receiveLoop (posts : ℕ → ℕ) (tick now : ℤ) : ℕ → Receiver → Receiver
  | 0, s => s
  | k + 1, s =>
    match s.channel.receive (posts s.received.length) with
    | none => s
    | some (msg, c) =>
      let r := hear now msg { s with channel := c, received := s.received ++ [(tick, msg)] }
      if r.2 then r.1 else receiveLoop posts tick now k r.1

end Receiver

open Receiver

/-- A turn of the loop of `main` that reaches the receive phase: `now` of `main`, and what the
clock shows when `receiveProcesses` reads it. -/
structure Turn where
  now : ℤ
  receiveNow : ℤ
deriving DecidableEq

/-- The receive phase of `scheduler.c`. -/
def schedulerTurn (posts : ℕ → ℕ) (s : Receiver) (t : Turn) : Receiver :=
  if s.receivingProcesses then receiveLoop posts t.now t.now s.channel.size s else s

/-- The receive phase of `rr_scheduler.c`. -/
def rrTurn (posts : ℕ → ℕ) (s : Receiver) (t : Turn) : Receiver :=
  if s.receivingProcesses ∧ t.now > s.lastReceivedSync then
    receiveLoop posts t.now t.receiveNow s.channel.size s
  else s

variable {c c' : Channel} {d e : ProcessData} {n k : ℕ} {s s' : Receiver} {posts : ℕ → ℕ}
  {tick now now' : ℤ} {msgs : List ProcessData} {t : Turn} {ts : List Turn}

/-! ### One receive -/

/-- **A receive**: some messages have been sent, and one of the lowest type present is taken. -/
theorem Channel.receive_eq_some (h : c.receive n = some (d, c')) : ∃ m,
    MsgQueue.rcv ProcessData.mtype (-5) (c.post m).posted = some (d, c'.posted) ∧
      c'.ahead = (c.post m).ahead := by
  obtain ⟨r, hr, he⟩ := Option.map_eq_some_iff.mp h
  cases he
  exact ⟨_, hr, rfl⟩

/-- A receive returns while there is a message. -/
theorem Channel.receive_isSome (hx : e ∈ c.posted ++ c.ahead)
    (htypes : ∀ x ∈ c.posted ++ c.ahead, x.mtype ≤ 5) : ∃ d c', c.receive n = some (d, c') := by
  have hsome : ∃ x, x ∈ (c.post (if c.posted = [] then max n 1 else n)).posted ∧
      x ∈ c.posted ++ c.ahead := by
    cases hp : c.posted with
    | cons x posted =>
      refine ⟨x, ?_, List.mem_append_left _ List.mem_cons_self⟩
      rw [Channel.post, hp]
      exact List.mem_append_left _ List.mem_cons_self
    | nil =>
      rw [hp, List.nil_append] at hx
      obtain ⟨x, ahead, ha⟩ := List.exists_cons_of_ne_nil (List.ne_nil_of_mem hx)
      obtain ⟨m, hm⟩ : ∃ m, max n 1 = m + 1 :=
        Nat.exists_eq_succ_of_ne_zero (by omega)
      refine ⟨x, ?_, by rw [ha]; exact List.mem_append_right _ List.mem_cons_self⟩
      rw [if_pos rfl, Channel.post, hp, ha, hm]
      exact List.mem_cons_self
  obtain ⟨x, hmem, hin⟩ := hsome
  obtain ⟨r, hr⟩ : ∃ r, MsgQueue.rcv ProcessData.mtype (-5)
      (c.post (if c.posted = [] then max n 1 else n)).posted = some r :=
    MsgQueue.rcv_neg_isSome (by decide) hmem (htypes x hin)
  exact ⟨r.1, _, by rw [Channel.receive, hr]; rfl⟩

theorem Channel.post_all (m : ℕ) (c : Channel) :
    (c.post m).posted ++ (c.post m).ahead = c.posted ++ c.ahead := by
  rw [Channel.post, List.append_assoc, List.take_append_drop]

/-- A receive removes one message, and there is none of a lower type in front of it. -/
theorem Channel.split_of_receive (h : c.receive n = some (d, c')) : ∃ l r,
    c.posted ++ c.ahead = l ++ d :: r ∧ c'.posted ++ c'.ahead = l ++ r ∧
      ∀ x ∈ l, d.mtype ≤ x.mtype := by
  obtain ⟨m, hrcv, hahead⟩ := Channel.receive_eq_some h
  obtain ⟨-, hmin, l, r, hl, hr, -⟩ := MsgQueue.rcv_neg_eq_some (by decide) hrcv
  refine ⟨l, r ++ c'.ahead, ?_, ?_, fun x hx => hmin x ?_⟩
  · rw [← Channel.post_all m c, hl, hahead, List.append_assoc, List.cons_append]
  · rw [hr, List.append_assoc]
  · rw [hl]
    exact List.mem_append_left _ hx

theorem Channel.size_of_receive (h : c.receive n = some (d, c')) : c.size = c'.size + 1 := by
  obtain ⟨l, r, hl, hr, -⟩ := Channel.split_of_receive h
  have hlen := congrArg List.length hl
  have hlen' := congrArg List.length hr
  rw [List.length_append, List.length_append, List.length_cons] at hlen
  rw [List.length_append, List.length_append] at hlen'
  rw [Channel.size, Channel.size]
  omega

/-- The messages of one type are received in the order they were sent. -/
theorem Channel.filter_of_receive (h : c.receive n = some (d, c')) (u : ℤ) :
    ((c.posted ++ c.ahead).filter fun x => x.mtype = u) = (if d.mtype = u then [d] else []) ++
      (c'.posted ++ c'.ahead).filter fun x => x.mtype = u := by
  obtain ⟨m, hrcv, hahead⟩ := Channel.receive_eq_some h
  rw [← Channel.post_all m c, hahead, List.filter_append, List.filter_append,
    MsgQueue.filter_of_rcv_neg (by decide) hrcv u, List.append_assoc]

/-! ### The messages of the generator -/

/-- **The messages of the generator**: processes, messages for increasing ticks, and the last
message at the end. -/
structure Sent (msgs : List ProcessData) : Prop where
  types : ∀ d ∈ msgs, d.mtype = 1 ∨ d.mtype = 2 ∨ d.mtype = 5
  ticks : (msgs.filter fun d => d.mtype = 2).Pairwise fun a b => a.arrival < b.arrival
  ends : ∃ pre d, msgs = pre ++ [d] ∧ d.mtype = 5 ∧ ∀ x ∈ pre, x.mtype ≠ 5

/-- What has been received and what has not are the messages. -/
structure Flow (msgs : List ProcessData) (s : Receiver) : Prop where
  types : ∀ d ∈ s.channel.posted ++ s.channel.ahead, d.mtype = 1 ∨ d.mtype = 2 ∨ d.mtype = 5
  /-- The messages for ticks are received in their order. -/
  order : ((s.received.map Prod.snd ++ (s.channel.posted ++ s.channel.ahead)).filter
    fun d => d.mtype = 2) = msgs.filter fun d => d.mtype = 2
  /-- There is nothing behind the last message. -/
  last : (s.channel.posted ++ s.channel.ahead).Pairwise fun a _ => a.mtype ≠ 5

theorem Sent.flow_start (h : Sent msgs) : Flow msgs (start msgs) where
  types := h.types
  order := rfl
  last := by
    obtain ⟨pre, d, rfl, -, hpre⟩ := h.ends
    have hlast : (pre ++ [d]).Pairwise fun a _ => a.mtype ≠ 5 := List.pairwise_append.mpr
      ⟨List.pairwise_of_forall_mem_list fun a ha _ _ => hpre a ha, List.pairwise_singleton _ _,
        fun a ha _ _ => hpre a ha⟩
    exact hlast

/-- **A receive keeps the flow**, and the last message is received when all others have been. -/
theorem Flow.receive (h : Flow msgs s) (hr : s.channel.receive n = some (d, c')) (tick : ℤ) :
    Flow msgs { s with channel := c', received := s.received ++ [(tick, d)] } ∧
      (d.mtype = 5 → c'.posted ++ c'.ahead = []) := by
  obtain ⟨l, r, hl, hlr, hlow⟩ := Channel.split_of_receive hr
  have hsub : (c'.posted ++ c'.ahead).Sublist (s.channel.posted ++ s.channel.ahead) := by
    rw [hl, hlr]
    exact (List.Sublist.refl l).append (List.sublist_cons_self d r)
  refine ⟨⟨fun x hx => h.types x (hsub.subset hx), ?_, h.last.sublist hsub⟩, fun h5 => ?_⟩
  · rw [← h.order, List.map_append, List.append_assoc, List.filter_append, List.filter_append,
      List.filter_append (s.received.map Prod.snd), Channel.filter_of_receive hr 2]
    by_cases h2 : d.mtype = 2
    · rw [if_pos h2, List.map_singleton, List.filter_cons_of_pos (by simpa using h2),
        List.filter_nil]
    · rw [if_neg h2, List.map_singleton, List.filter_cons_of_neg (by simpa using h2),
        List.filter_nil]
  · -- nothing is behind the message, and what is in front of it is of its type
    have hlast := h.last
    rw [hl] at hlast
    obtain ⟨-, hdr, hld⟩ := List.pairwise_append.mp hlast
    have hnil : r = [] := by
      refine List.eq_nil_iff_forall_not_mem.mpr fun x hx => ?_
      exact (List.pairwise_cons.mp hdr).1 x hx h5
    have hnil' : l = [] := by
      refine List.eq_nil_iff_forall_not_mem.mpr fun x hx => ?_
      have hne := hld x hx d List.mem_cons_self
      have hle := hlow x hx
      have htype := h.types x (by rw [hl]; exact List.mem_append_left _ hx)
      omega
    rw [hlr, hnil, hnil', List.append_nil]

/-- A message for a tick that has not been received is in the queue or ahead, behind all that
have been received. -/
theorem Flow.split (h : Flow msgs s) (hm : Sent msgs) (hd : d ∈ msgs) (h2 : d.mtype = 2) :
    (∃ x ∈ s.received, x.2 = d) ∨ (d ∈ s.channel.posted ++ s.channel.ahead ∧
      ∀ x ∈ s.received, x.2.mtype = 2 → x.2.arrival < d.arrival) := by
  have hmem : d ∈ msgs.filter fun d => d.mtype = 2 := List.mem_filter.mpr ⟨hd, by simpa using h2⟩
  have hticks := hm.ticks
  rw [← h.order, List.filter_append] at hmem hticks
  rcases List.mem_append.mp hmem with hmem | hmem
  · obtain ⟨x, hx, rfl⟩ := List.mem_map.mp (List.mem_filter.mp hmem).1
    exact Or.inl ⟨x, hx, rfl⟩
  · refine Or.inr ⟨(List.mem_filter.mp hmem).1, fun x hx hx2 => ?_⟩
    exact (List.pairwise_append.mp hticks).2.2 x.2
      (List.mem_filter.mpr ⟨List.mem_map_of_mem hx, by simpa using hx2⟩) d hmem

/-! ### The loop -/

/-- **What a run of the loop does**: it receives these messages and ends with the last of them. -/
structure Looped (msgs : List ProcessData) (tick now : ℤ) (s s' : Receiver)
    (mid : List ProcessData) (e : ProcessData) : Prop where
  flow : Flow msgs s'
  received : s'.received = s.received ++ (mid ++ [e]).map (tick, ·)
  before : ∀ d ∈ mid, d.mtype = 2 → d.arrival < now
  ends : (e.mtype = 2 ∧ now ≤ e.arrival ∧ s'.receivingProcesses = s.receivingProcesses ∧
      s'.lastReceivedSync = e.arrival ∧ ∃ d ∈ s'.channel.posted ++ s'.channel.ahead, d.mtype = 5) ∨
    (e.mtype = 5 ∧ s'.receivingProcesses = false ∧ s'.lastReceivedSync = s.lastReceivedSync ∧
      s'.channel.posted ++ s'.channel.ahead = [])

/-- The loop ends, while the last message has not been received. -/
theorem receiveLoop_looped (posts : ℕ → ℕ) (tick now : ℤ) (hf : Flow msgs s)
    (hk : s.channel.size ≤ k) (hp : ∃ d ∈ s.channel.posted ++ s.channel.ahead, d.mtype = 5) :
    ∃ mid e, Looped msgs tick now s (receiveLoop posts tick now k s) mid e := by
  induction k generalizing s with
  | zero =>
    obtain ⟨d, hd, -⟩ := hp
    have hlen := List.length_pos_of_mem hd
    rw [List.length_append] at hlen
    exact absurd hk (by rw [Channel.size]; omega)
  | succ k ih =>
    obtain ⟨x, hx, hx5⟩ := hp
    obtain ⟨d, c', hr⟩ := Channel.receive_isSome (n := posts s.received.length) hx
      (fun y hy => by have := hf.types y hy; omega)
    obtain ⟨hf', hnil⟩ := hf.receive hr tick
    obtain ⟨l, r, hl, hlr, -⟩ := Channel.split_of_receive hr
    have hpend : d.mtype ≠ 5 → ∃ y ∈ c'.posted ++ c'.ahead, y.mtype = 5 := fun h5 => by
      refine ⟨x, ?_, hx5⟩
      rw [hl] at hx
      rw [hlr]
      rcases List.mem_append.mp hx with hx | hx
      · exact List.mem_append_left _ hx
      · rcases List.mem_cons.mp hx with rfl | hx
        · exact absurd hx5 h5
        · exact List.mem_append_right _ hx
    have hgo : d.mtype ≠ 5 → (d.mtype = 2 → d.arrival < now) →
        ∃ mid e, Looped msgs tick now s (receiveLoop posts tick now k
          { s with channel := c', received := s.received ++ [(tick, d)] }) mid e := by
      intro h5 h2
      have hsize := Channel.size_of_receive hr
      have hk' : c'.size ≤ k := by omega
      obtain ⟨mid, e, hloop⟩ := ih hf' hk' (hpend h5)
      refine ⟨d :: mid, e, hloop.flow, ?_, List.forall_mem_cons.mpr ⟨h2, hloop.before⟩, hloop.ends⟩
      rw [hloop.received, List.append_assoc]
      rfl
    rw [receiveLoop, hr]
    simp only [hear]
    by_cases h1 : d.mtype = 1
    · simp only [if_pos h1, Bool.false_eq_true, if_false]
      exact hgo (by omega) (by omega)
    by_cases h2 : d.mtype = 2
    · by_cases hnew : d.arrival ≥ now
      · simp only [if_neg h1, if_pos h2, if_pos hnew, if_true]
        exact ⟨[], d, ⟨hf'.types, hf'.order, hf'.last⟩, rfl, List.forall_mem_nil _,
          Or.inl ⟨h2, hnew, rfl, rfl, hpend (by omega)⟩⟩
      · simp only [if_neg h1, if_pos h2, if_neg hnew, Bool.false_eq_true, if_false]
        exact hgo (by omega) (fun _ => not_le.mp hnew)
    · have h5 : d.mtype = 5 := by
        have := hf.types d (by rw [hl]; exact List.mem_append_right _ List.mem_cons_self)
        omega
      simp only [if_neg h1, if_neg h2, if_pos h5, if_true]
      exact ⟨[], d, ⟨hf'.types, hf'.order, hf'.last⟩, rfl, List.forall_mem_nil _,
        Or.inr ⟨h5, rfl, rfl, hnil h5⟩⟩

/-- Two loops do the same when no message tells their ticks apart. -/
theorem receiveLoop_congr (h : ∀ d ∈ s.channel.posted ++ s.channel.ahead, d.mtype = 2 →
    (d.arrival ≥ now ↔ d.arrival ≥ now')) :
    receiveLoop posts tick now k s = receiveLoop posts tick now' k s := by
  induction k generalizing s with
  | zero => rfl
  | succ k ih =>
    rw [receiveLoop, receiveLoop]
    cases hr : s.channel.receive (posts s.received.length) with
    | none => rfl
    | some r =>
      obtain ⟨d, c'⟩ := r
      obtain ⟨l, r, hl, hlr, -⟩ := Channel.split_of_receive hr
      have hd : d.mtype = 2 → (d.arrival ≥ now ↔ d.arrival ≥ now') :=
        h d (by rw [hl]; exact List.mem_append_right _ List.mem_cons_self)
      have hc' : ∀ x ∈ c'.posted ++ c'.ahead, x.mtype = 2 →
          (x.arrival ≥ now ↔ x.arrival ≥ now') := fun x hx => h x (by
        rw [hlr] at hx
        rw [hl]
        exact (((List.Sublist.refl l).append (List.sublist_cons_self d r)).subset) hx)
      simp only [hear]
      by_cases h1 : d.mtype = 1
      · simp only [if_pos h1, Bool.false_eq_true, if_false]
        exact ih hc'
      by_cases h2 : d.mtype = 2
      · by_cases hnew : d.arrival ≥ now
        · simp only [if_neg h1, if_pos h2, if_pos hnew, if_pos ((hd h2).mp hnew), if_true]
        · simp only [if_neg h1, if_pos h2, if_neg hnew, if_neg (fun hc => hnew ((hd h2).mpr hc)),
            Bool.false_eq_true, if_false]
          exact ih hc'
      · by_cases h5 : d.mtype = 5
        · simp only [if_neg h1, if_neg h2, if_pos h5, if_true]
        · simp only [if_neg h1, if_neg h2, if_neg h5, Bool.false_eq_true, if_false]
          exact ih hc'

/-- The loop only adds to what has been received. -/
theorem prefix_receiveLoop : s.received <+: (receiveLoop posts tick now k s).received := by
  induction k generalizing s with
  | zero => exact List.prefix_rfl
  | succ k ih =>
    rw [receiveLoop]
    split
    · exact List.prefix_rfl
    · next msg c _ =>
      have hheard : (hear now msg { s with channel := c, received := s.received ++ [(tick, msg)]
          }).1.received = s.received ++ [(tick, msg)] := by
        rw [hear]
        split_ifs <;> rfl
      have hle : s.received <+: (hear now msg { s with
          channel := c, received := s.received ++ [(tick, msg)] }).1.received := by
        rw [hheard]
        exact List.prefix_append _ _
      dsimp only
      split_ifs
      · exact hle
      · exact hle.trans ih

/-! ### Turn by turn -/

/-- **The receiver is patient**: once it has received a message for the tick of its turn, or for a
later one, it receives nothing more in this turn or any other for which this holds. -/
def Receiver.Patient (s : Receiver) : Prop :=
  s.received.Pairwise fun x y => x.2.mtype = 2 → x.2.arrival < y.1

/-- The processes that have been admitted, each with the tick of the turn. -/
def Receiver.admitted (s : Receiver) : List (ℤ × ProcessData) :=
  s.received.filter fun x => x.2.mtype = 1

/-- **The two agree**: they admit each process in the same turn, and both are patient. -/
structure Agree (s r : Receiver) : Prop where
  admitted : s.admitted = r.admitted
  scheduler : s.Patient
  rr : r.Patient

/-- **The clock and the messages keep pace.** -/
structure InStep (msgs : List ProcessData) (ts : List Turn) : Prop where
  /-- Before the next turn there is a message for the tick of a turn, or for a later tick, unless
  there is none any more. -/
  apart : ts.Pairwise fun t u =>
    (∃ d ∈ msgs, d.mtype = 2 ∧ t.now ≤ d.arrival ∧ d.arrival < u.now) ∨
      ∀ d ∈ msgs, d.mtype = 2 → d.arrival < t.now
  /-- The clock does not get past one while it is read for the second time. -/
  reading : ∀ t ∈ ts, ∀ d ∈ msgs, d.mtype = 2 → ¬(t.now ≤ d.arrival ∧ d.arrival < t.receiveNow)

/-- The ticks that the scheduler sees. -/
structure Seen (ts : List Turn) : Prop where
  rising : ts.Pairwise fun t u => t.now < u.now
  clock : ∀ t ∈ ts, 0 ≤ t.now ∧ t.now ≤ t.receiveNow

/-- While messages are received: those for ticks are for ticks before each of the turns. -/
def Behind (s : Receiver) (ts : List Turn) : Prop := s.receivingProcesses = true →
  ∀ t ∈ ts, ∀ x ∈ s.received, x.2.mtype = 2 → x.2.arrival < t.now

/-- **The state between two turns**, the last of them for tick `b`. -/
structure Steady (msgs : List ProcessData) (b : ℤ) (s : Receiver) : Prop where
  flow : Flow msgs s
  pending : s.receivingProcesses = true →
    ∃ d ∈ s.channel.posted ++ s.channel.ahead, d.mtype = 5
  /-- `last_received_sync` is one of the ticks for which a message was received. -/
  synced : s.lastReceivedSync = -1 ∨
    ∃ x ∈ s.received, x.2.mtype = 2 ∧ x.2.arrival = s.lastReceivedSync
  patient : s.Patient
  done : s.receivingProcesses = false → ∀ d ∈ msgs, d.mtype = 2 → d.arrival < b

variable {b : ℤ} {mid : List ProcessData}

theorem Sent.steady_start (h : Sent msgs) : Steady msgs b (start msgs) where
  flow := h.flow_start
  pending _ := by
    obtain ⟨pre, d, rfl, h5, -⟩ := h.ends
    exact ⟨d, List.mem_append_right pre List.mem_cons_self, h5⟩
  synced := Or.inl rfl
  patient := List.Pairwise.nil
  done hrec := nomatch hrec

/-- A loop that is entered too late shows. -/
theorem Looped.not_patient (h : Looped msgs tick now s s' mid e) {x : ℤ × ProcessData}
    (hx : x ∈ s.received) (h2 : x.2.mtype = 2) (hlate : tick ≤ x.2.arrival) : ¬s'.Patient := by
  intro hp
  rw [Receiver.Patient, h.received] at hp
  have he : (tick, e) ∈ (mid ++ [e]).map (tick, ·) :=
    List.mem_map_of_mem (List.mem_append_right _ List.mem_cons_self)
  exact absurd ((List.pairwise_append.mp hp).2.2 x hx _ he h2) hlate.not_gt

/-- What a loop with the tick of its turn has received, up to the message that ends it, is for
ticks before. -/
theorem Looped.lt_tick (h : Looped msgs tick tick s s' mid e)
    (hbehind : ∀ x ∈ s.received, x.2.mtype = 2 → x.2.arrival < tick) :
    ∀ x ∈ s.received ++ mid.map (tick, ·), x.2.mtype = 2 → x.2.arrival < tick := by
  intro x hx h2
  rcases List.mem_append.mp hx with hx | hx
  · exact hbehind x hx h2
  · obtain ⟨d, hd, rfl⟩ := List.mem_map.mp hx
    exact h.before d hd h2

/-- **A turn keeps the state steady.** -/
theorem Steady.looped (h : Steady msgs b s) (hm : Sent msgs)
    (hbehind : ∀ x ∈ s.received, x.2.mtype = 2 → x.2.arrival < tick)
    (hl : Looped msgs tick tick s s' mid e) (hrec : s.receivingProcesses = true) :
    Steady msgs tick s' := by
  have hreceived : s'.received = (s.received ++ mid.map (tick, ·)) ++ [(tick, e)] := by
    rw [hl.received, List.map_append, List.append_assoc, List.map_singleton]
  have hlt := hl.lt_tick hbehind
  refine ⟨hl.flow, fun hrec' => ?_, ?_, ?_, fun hrec' d hd h2 => ?_⟩
  · rcases hl.ends with ⟨-, -, -, -, hp⟩ | ⟨-, hno, -⟩
    · exact hp
    · rw [hno] at hrec'
      exact nomatch hrec'
  · rcases hl.ends with ⟨h2, -, -, hs, -⟩ | ⟨-, -, hs, -⟩
    · refine Or.inr ⟨(tick, e), ?_, h2, hs.symm⟩
      rw [hreceived]
      exact List.mem_append_right _ List.mem_cons_self
    · rw [hs]
      refine h.synced.imp_right ?_
      rintro ⟨x, hx, h2⟩
      refine ⟨x, ?_, h2⟩
      rw [hl.received]
      exact List.mem_append_left _ hx
  · rw [Receiver.Patient, hl.received]
    refine List.pairwise_append.mpr ⟨h.patient, ?_, fun x hx y hy h2 => ?_⟩
    · rw [List.map_append, List.map_singleton]
      refine List.pairwise_append.mpr ⟨?_, List.pairwise_singleton _ _, fun x hx y hy h2 => ?_⟩
      · refine List.pairwise_of_forall_mem_list fun x hx y hy h2 => ?_
        obtain ⟨d, -, rfl⟩ := List.mem_map.mp hy
        exact hlt x (List.mem_append_right _ hx) h2
      · rw [List.mem_singleton.mp hy]
        exact hlt x (List.mem_append_right _ hx) h2
    · obtain ⟨d, -, rfl⟩ := List.mem_map.mp hy
      exact hbehind x hx h2
  · rcases hl.ends with ⟨-, -, hsame, -⟩ | ⟨h5, -, -, hnil⟩
    · rw [hsame, hrec] at hrec'
      exact nomatch hrec'
    · -- everything has been received, and the last message is for no tick
      rcases hl.flow.split hm hd h2 with ⟨x, hx, rfl⟩ | ⟨hx, -⟩
      · rw [hreceived] at hx
        rcases List.mem_append.mp hx with hx | hx
        · exact hlt x hx h2
        · rw [List.mem_singleton.mp hx] at h2
          exact absurd (h5.symm.trans h2) (by decide)
      · rw [hnil] at hx
        exact nomatch hx

/-- The messages for ticks are messages of the generator, whether they have been received or
not. -/
theorem Flow.mem (h : Flow msgs s) (h2 : d.mtype = 2)
    (hd : d ∈ s.received.map Prod.snd ++ (s.channel.posted ++ s.channel.ahead)) : d ∈ msgs := by
  have hmem : d ∈ (s.received.map Prod.snd ++ (s.channel.posted ++ s.channel.ahead)).filter
      fun d => d.mtype = 2 := List.mem_filter.mpr ⟨hd, decide_eq_true h2⟩
  rw [h.order] at hmem
  exact (List.mem_filter.mp hmem).1

/-- A loop that passes over a message for its turn shows as well. -/
theorem Looped.not_patient_of_read (h : Looped msgs tick now s s' mid e) (hm : Sent msgs)
    (hd : d ∈ msgs) (h2 : d.mtype = 2) (hfrom : tick ≤ d.arrival) (hto : d.arrival < now) :
    ¬s'.Patient := by
  intro hp
  have hreceived : s'.received = (s.received ++ mid.map (tick, ·)) ++ [(tick, e)] := by
    rw [h.received, List.map_append, List.append_assoc, List.map_singleton]
  rw [Receiver.Patient, hreceived] at hp
  have hlt := (List.pairwise_append.mp hp).2.2
  rcases h.flow.split hm hd h2 with ⟨x, hx, rfl⟩ | ⟨hx, hall⟩
  · rw [hreceived] at hx
    rcases List.mem_append.mp hx with hx | hx
    · exact absurd (hlt x hx _ List.mem_cons_self h2) hfrom.not_gt
    · rw [List.mem_singleton.mp hx] at h2 hto
      rcases h.ends with ⟨-, hge, -⟩ | ⟨h5, -⟩
      · exact absurd hto hge.not_gt
      · exact absurd (h5.symm.trans h2) (by decide)
  · rcases h.ends with ⟨he2, hge, -⟩ | ⟨-, -, -, hnil⟩
    · have he : (tick, e) ∈ s'.received := by
        rw [hreceived]
        exact List.mem_append_right _ List.mem_cons_self
      have hed : e.arrival < d.arrival := hall _ he he2
      omega
    · rw [hnil] at hx
      exact nomatch hx

/-- After a turn: what has been received is behind the next turns exactly when each of them is
apart from this one. -/
theorem Looped.behind_iff (hl : Looped msgs t.now t.now s s' mid e) (hm : Sent msgs)
    (hs : Steady msgs t.now s') (hbehind : ∀ x ∈ s.received, x.2.mtype = 2 → x.2.arrival < t.now)
    (hrec : s.receivingProcesses = true) (hrise : ∀ u ∈ ts, t.now < u.now) :
    Behind s' ts ↔ ∀ u ∈ ts,
      (∃ d ∈ msgs, d.mtype = 2 ∧ t.now ≤ d.arrival ∧ d.arrival < u.now) ∨
        ∀ d ∈ msgs, d.mtype = 2 → d.arrival < t.now := by
  have hreceived : s'.received = (s.received ++ mid.map (t.now, ·)) ++ [(t.now, e)] := by
    rw [hl.received, List.map_append, List.append_assoc, List.map_singleton]
  have hlt := hl.lt_tick hbehind
  have he : (t.now, e) ∈ s'.received := by
    rw [hreceived]
    exact List.mem_append_right _ List.mem_cons_self
  rcases hl.ends with ⟨h2, hge, hsame, -, -⟩ | ⟨-, hno, -, -⟩
  · have hmem : e ∈ msgs := hl.flow.mem h2 (List.mem_append_left _ (List.mem_map_of_mem he))
    constructor
    · intro hb u hu
      exact Or.inl ⟨e, hmem, h2, hge, hb (hsame.trans hrec) u hu _ he h2⟩
    · intro hu _ u hut x hx hx2
      rw [hreceived] at hx
      rcases List.mem_append.mp hx with hx | hx
      · exact (hlt x hx hx2).trans (hrise u hut)
      · rw [List.mem_singleton.mp hx]
        show e.arrival < u.now
        rcases hu u hut with ⟨d, hd, hd2, hfrom, hto⟩ | hnone
        · rcases hl.flow.split hm hd hd2 with ⟨y, hy, rfl⟩ | ⟨-, hall⟩
          · rw [hreceived] at hy
            rcases List.mem_append.mp hy with hy | hy
            · exact absurd (hlt y hy hd2) hfrom.not_gt
            · rw [List.mem_singleton.mp hy] at hto
              exact hto
          · exact (hall _ he h2).trans hto
        · exact absurd (hnone e hmem h2) hge.not_gt
  · refine iff_of_true (fun hrec' => ?_) fun u _ => Or.inr (hs.done hno)
    rw [hno] at hrec'
    exact nomatch hrec'

theorem prefix_schedulerTurn : s.received <+: (schedulerTurn posts s t).received := by
  rw [schedulerTurn]
  split_ifs
  · exact prefix_receiveLoop
  · exact List.prefix_rfl

theorem prefix_rrTurn : s.received <+: (rrTurn posts s t).received := by
  rw [rrTurn]
  split_ifs
  · exact prefix_receiveLoop
  · exact List.prefix_rfl

theorem prefix_foldl {turn : Receiver → Turn → Receiver}
    (h : ∀ s t, s.received <+: (turn s t).received) :
    s.received <+: (ts.foldl turn s).received := by
  induction ts generalizing s with
  | nil => exact List.prefix_rfl
  | cons t ts ih => exact (h s t).trans ih

theorem Receiver.Patient.of_prefix (h : s'.Patient) (hle : s.received <+: s'.received) :
    s.Patient :=
  List.Pairwise.sublist hle.sublist h

theorem inStep_cons : InStep msgs (t :: ts) ↔
    (∀ u ∈ ts, (∃ d ∈ msgs, d.mtype = 2 ∧ t.now ≤ d.arrival ∧ d.arrival < u.now) ∨
      ∀ d ∈ msgs, d.mtype = 2 → d.arrival < t.now) ∧
    (∀ d ∈ msgs, d.mtype = 2 → ¬(t.now ≤ d.arrival ∧ d.arrival < t.receiveNow)) ∧
    InStep msgs ts := by
  constructor
  · rintro ⟨ha, hr⟩
    obtain ⟨ha, has⟩ := List.pairwise_cons.mp ha
    obtain ⟨hr, hrs⟩ := List.forall_mem_cons.mp hr
    exact ⟨ha, hr, has, hrs⟩
  · rintro ⟨ha, hr, has, hrs⟩
    exact ⟨List.pairwise_cons.mpr ⟨ha, has⟩, List.forall_mem_cons.mpr ⟨hr, hrs⟩⟩

/-- **From a steady state on**, the two agree exactly when the clock and the messages keep pace and
nothing has been received too early. -/
theorem Steady.agree_iff (hm : Sent msgs) (h : Steady msgs b s) (hb : ∀ t ∈ ts, b ≤ t.now)
    (hseen : Seen ts) : Agree (ts.foldl (schedulerTurn posts) s) (ts.foldl (rrTurn posts) s) ↔
      InStep msgs ts ∧ Behind s ts := by
  induction ts generalizing s b with
  | nil =>
    exact iff_of_true ⟨rfl, h.patient, h.patient⟩
      ⟨⟨List.Pairwise.nil, List.forall_mem_nil _⟩, fun _ => List.forall_mem_nil _⟩
  | cons t ts ih =>
    obtain ⟨hrise, hrises⟩ := List.pairwise_cons.mp hseen.rising
    obtain ⟨⟨h0, hread⟩, hclk⟩ := List.forall_mem_cons.mp hseen.clock
    obtain ⟨hbt, hbs⟩ := List.forall_mem_cons.mp hb
    rw [List.foldl_cons, List.foldl_cons]
    cases hrec : s.receivingProcesses with
    | false =>
      -- everything has been received, by both
      have hdone : ∀ d ∈ msgs, d.mtype = 2 → d.arrival < t.now := fun d hd h2 =>
        (h.done hrec d hd h2).trans_le hbt
      have hstop : ∀ {l : List Turn}, Behind s l := fun {l} hc => by
        rw [hrec] at hc
        exact nomatch hc
      rw [schedulerTurn, rrTurn, if_neg (by rw [hrec]; decide),
        if_neg (fun hc => by rw [hrec] at hc; exact nomatch hc.1), ih h hbs ⟨hrises, hclk⟩,
        and_iff_left hstop, and_iff_left hstop, inStep_cons]
      exact (and_iff_right fun _ _ => Or.inr hdone).symm.trans (and_congr_right fun _ =>
        (and_iff_right fun d hd h2 hc => absurd (hdone d hd h2) hc.1.not_gt).symm)
    | true =>
      obtain ⟨mid, e, hloop⟩ := receiveLoop_looped posts t.now t.now
        h.flow le_rfl (h.pending hrec)
      obtain ⟨mid', e', hloop'⟩ := receiveLoop_looped posts t.now t.receiveNow
        h.flow le_rfl (h.pending hrec)
      have hs : schedulerTurn posts s t = receiveLoop posts t.now t.now s.channel.size s :=
        if_pos hrec
      by_cases hbehind : ∀ x ∈ s.received, x.2.mtype = 2 → x.2.arrival < t.now
      · have hguard : s.lastReceivedSync < t.now := by
          rcases h.synced with hs | ⟨x, hx, h2, hs⟩
          · omega
          · exact hs ▸ hbehind x hx h2
        have hr : rrTurn posts s t = receiveLoop posts t.now t.receiveNow s.channel.size s :=
          if_pos ⟨hrec, hguard⟩
        by_cases hpass : ∀ d ∈ msgs, d.mtype = 2 →
            ¬(t.now ≤ d.arrival ∧ d.arrival < t.receiveNow)
        · -- the two do the same in this turn
          have hsame : rrTurn posts s t = schedulerTurn posts s t := by
            rw [hr, hs]
            refine receiveLoop_congr fun d hd h2 => ?_
            have hmem := h.flow.mem h2 (List.mem_append_right _ hd)
            have hno := hpass d hmem h2
            omega
          have hsteady : Steady msgs t.now (schedulerTurn posts s t) := by
            rw [hs]
            exact h.looped hm hbehind hloop hrec
          rw [hsame, ih hsteady (fun u hu => (hrise u hu).le) ⟨hrises, hclk⟩, inStep_cons]
          rw [hs] at hsteady ⊢
          rw [hloop.behind_iff hm hsteady hbehind hrec hrise]
          constructor
          · rintro ⟨hin, hap⟩
            refine ⟨⟨hap, hpass, hin⟩, fun _ => List.forall_mem_cons.mpr ⟨hbehind, ?_⟩⟩
            exact fun u hu x hx h2 => (hbehind x hx h2).trans (hrise u hu)
          · rintro ⟨⟨hap, -, hin⟩, -⟩
            exact ⟨hin, hap⟩
        · -- `receiveProcesses` passes over a message for the turn
          push Not at hpass
          obtain ⟨d, hd, h2, hfrom, hto⟩ := hpass
          refine iff_of_false (fun ha => ?_) fun hc =>
            (inStep_cons.mp hc.1).2.1 d hd h2 ⟨hfrom, hto⟩
          have hp := ha.rr.of_prefix (prefix_foldl fun _ _ => prefix_rrTurn)
          rw [hr] at hp
          exact hloop'.not_patient_of_read hm hd h2 hfrom hto hp
      · -- `scheduler.c` receives once more for the same tick
        push Not at hbehind
        obtain ⟨x, hx, h2, hlate⟩ := hbehind
        refine iff_of_false (fun ha => ?_) fun hc =>
          absurd (hc.2 hrec t List.mem_cons_self x hx h2) hlate.not_gt
        have hp := ha.scheduler.of_prefix (prefix_foldl fun _ _ => prefix_schedulerTurn)
        rw [hs] at hp
        exact hloop.not_patient hx h2 hlate hp

/-! ### The two runs -/

/-- The receive phases of a run of `scheduler.c`, and of a run of `rr_scheduler.c`. -/
def schedulerRun (posts : ℕ → ℕ) (msgs : List ProcessData) (ts : List Turn) : Receiver :=
  ts.foldl (schedulerTurn posts) (start msgs)

def rrRun (posts : ℕ → ℕ) (msgs : List ProcessData) (ts : List Turn) : Receiver :=
  ts.foldl (rrTurn posts) (start msgs)

/-- **The two receive phases agree as far as the clock and the messages keep pace**: whatever the
generator sends and whenever it does, they admit each process in the same turn, and neither
receives behind a message for its turn, exactly when there is a message between any two ticks that
are seen, and none for a tick that is passed over between two readings of the clock. -/
theorem agree_iff_inStep (msgs : List ProcessData) (ts : List Turn) (posts : ℕ → ℕ)
    (hm : Sent msgs) (hseen : Seen ts) :
    Agree (schedulerRun posts msgs ts) (rrRun posts msgs ts) ↔ InStep msgs ts :=
  ((hm.steady_start (b := 0)).agree_iff hm (fun t ht => (hseen.clock t ht).1) hseen).trans
    (and_iff_left fun _ _ _ _ hx => nomatch hx)

/-- What the generator sends when the clock has been observed to the end. -/
theorem sent_generate {lines : List ProcessData} {seen : List ℤ}
    (hts : ((-1) :: seen).Pairwise (· < ·))
    (hr : Generator.Reached seen (Generator.readProcesses lines)) :
    Sent ((Generator.generate lines seen).map Prod.snd) := by
  have hq : ∀ p ∈ Generator.readProcesses lines, p.mtype = 1 :=
    fun _ => Generator.mtype_readProcesses
  refine ⟨fun d hd => ?_, ?_, ?_⟩
  · obtain ⟨x, hx, rfl⟩ := List.mem_map.mp hd
    exact Generator.mtype_of_run hq hx
  · rw [List.filter_map, List.pairwise_map]
    exact Generator.run_rising hq hts
  · obtain ⟨pre, u, hrun, hpre⟩ := Generator.run_ends hq hts hr
    refine ⟨pre.map Prod.snd, World.lastMsg, ?_, rfl, fun x hx => ?_⟩
    · rw [Generator.generate, hrun, List.map_append]
      rfl
    · obtain ⟨y, hy, rfl⟩ := List.mem_map.mp hx
      exact hpre y hy

/-- One process, and a generator that looks at the clock at these ticks. -/
def sole (arrival : ℤ) (seen : List ℤ) : List ProcessData :=
  (Generator.generate [Generator.line 1 arrival 2] seen).map Prod.snd

/-- Two processes, and a generator that looks at the clock at these ticks. -/
def pair (seen : List ℤ) : List ProcessData :=
  (Generator.generate [Generator.line 1 1 2, Generator.line 2 2 2] seen).map Prod.snd

/-- The two agree when the generator has seen tick 0 as well as the scheduler, and sends while it
waits. They do not when it has not. -/
theorem agree_iff_inStep_pair :
    Agree (schedulerRun (fun _ => 0) (pair [0, 1, 2]) [⟨0, 0⟩, ⟨1, 1⟩, ⟨2, 2⟩, ⟨3, 3⟩])
      (rrRun (fun _ => 0) (pair [0, 1, 2]) [⟨0, 0⟩, ⟨1, 1⟩, ⟨2, 2⟩, ⟨3, 3⟩]) ∧
    ¬Agree (schedulerRun (fun _ => 0) (pair [1, 2]) [⟨0, 0⟩, ⟨1, 1⟩, ⟨2, 2⟩, ⟨3, 3⟩])
      (rrRun (fun _ => 0) (pair [1, 2]) [⟨0, 0⟩, ⟨1, 1⟩, ⟨2, 2⟩, ⟨3, 3⟩]) := by
  have hseen : Seen [⟨0, 0⟩, ⟨1, 1⟩, ⟨2, 2⟩, ⟨3, 3⟩] := ⟨by decide, by decide⟩
  refine ⟨(agree_iff_inStep _ _ _ (sent_generate ?_ ?_) hseen).mpr ⟨?_, ?_⟩, fun h => ?_⟩
  case refine_5 =>
    have hsent : Sent (pair [1, 2]) :=
      sent_generate (by decide) (by unfold Generator.Reached; decide)
    have hstep := ((agree_iff_inStep _ _ _ hsent hseen).mp h).apart
    exact absurd hstep (by decide)
  case refine_2 => unfold Generator.Reached; decide
  all_goals decide

/-- **The two do not agree when the generator starts a tick later**: the scheduler sees tick 0, and
the first message is for tick 1. `scheduler.c` has received it at tick 0, waits at tick 1 for the
message for tick 2, and admits the process that arrives at 2 with it; `rr_scheduler.c` admits it at
tick 2. -/
theorem not_agree : Sent (sole 2 [1, 2, 3]) ∧ Seen [⟨0, 0⟩, ⟨1, 1⟩, ⟨2, 2⟩] ∧
    (schedulerRun (fun _ => 0) (sole 2 [1, 2, 3]) [⟨0, 0⟩, ⟨1, 1⟩, ⟨2, 2⟩]).admitted =
      [(1, { Generator.line 1 2 2 with mtype := 1 })] ∧
    (rrRun (fun _ => 0) (sole 2 [1, 2, 3]) [⟨0, 0⟩, ⟨1, 1⟩, ⟨2, 2⟩]).admitted =
      [(2, { Generator.line 1 2 2 with mtype := 1 })] ∧
    ¬Agree (schedulerRun (fun _ => 0) (sole 2 [1, 2, 3]) [⟨0, 0⟩, ⟨1, 1⟩, ⟨2, 2⟩])
      (rrRun (fun _ => 0) (sole 2 [1, 2, 3]) [⟨0, 0⟩, ⟨1, 1⟩, ⟨2, 2⟩]) :=
  ⟨sent_generate (by decide) (by unfold Generator.Reached; decide), ⟨by decide, by decide⟩,
    by decide +kernel, by decide +kernel,
    fun h => absurd h.admitted (by decide +kernel)⟩

/-! ### The receive loops of the two models -/

/-- The receiver that a state of `rr_scheduler.c` is. -/
def ofRR (s : RRState) (ahead : List ProcessData) (received : List (ℤ × ProcessData)) :
    Receiver where
  channel := { posted := s.msgq, ahead := ahead }
  receivingProcesses := s.receivingProcesses
  lastReceivedSync := s.lastReceivedSync
  received := received

/-- The one that a state of `scheduler.c` is. -/
def ofMain (w : Dual.World) (ahead : List ProcessData) (sync : ℤ)
    (received : List (ℤ × ProcessData)) : Receiver where
  channel := { posted := w.msgq, ahead := ahead }
  receivingProcesses := w.main.receivingProcesses
  lastReceivedSync := sync
  received := received

variable {msg : ProcessData} {rest ahead : List ProcessData} {received : List (ℤ × ProcessData)}

/-- `receiveProcesses` is entered in this case. -/
theorem gate_receive_iff {clk : Clk} {s : RRState} :
    (s.gate clk).pc = .receive ↔ (s.contextSwitchUntil = -1 ∨ s.now ≥ s.contextSwitchUntil) ∧
      (s.receivingProcesses = true ∧ s.now > s.lastReceivedSync) := by
  rw [RRState.gate]
  dsimp only
  split_ifs with hopen hrec
  · exact iff_of_true rfl ⟨hopen, hrec⟩
  · exact iff_of_false (by simp) fun h => hrec h.2
  · exact iff_of_false (by simp) fun h => hopen h.1

/-- **A turn of the loop of `scheduler.c` receives in this case**, and in no other does the main
scheduler come to where it receives. -/
theorem mainNext_receive_iff {P : Dual.Params} {w w' : Dual.World} (hpc : w.main.pc ≠ .receive)
    (h : Dual.World.mainNext P w = .ok w') : w'.main.pc = .receive ↔
      w.main.pc = .shut ∧ w.main.receivingProcesses = true := by
  -- the cut behind the loop is never the one in front of it
  have hbehind : ∀ now, Dual.Main.behindReceive now ≠ .receive := by
    intro now
    rw [Dual.Main.behindReceive]
    split_ifs <;> simp
  cases Dual.World.mainNext_cases h with
  | shut hshut =>
    cases hr : w.main.receivingProcesses with
    | true => exact iff_of_true (by simp [Dual.World.goto, hr]) ⟨hshut, rfl⟩
    | false =>
      exact iff_of_false (by simpa [Dual.World.goto, hr] using hbehind _) (by simp)
  | spin htop => exact iff_of_false hpc (by simp [htop])
  | arrive hrec | sync hrec | drop hrec | last hrec => exact absurd hrec hpc
  | bottom hbot hterm =>
    rcases hterm with ⟨-, -, rfl⟩ | ⟨-, rfl⟩ <;> exact iff_of_false (by simp) (by simp [hbot])
  | _ hother => exact iff_of_false (by simp [Dual.World.goto]) (by simp [hother])

/-- What the tick of such a turn is, and that nothing has been received when it begins. -/
theorem mainNext_shut {P : Dual.Params} {w w' : Dual.World} (hpc : w.main.pc = .shut)
    (h : Dual.World.mainNext P w = .ok w') (sync : ℤ) :
    ofMain w' ahead sync received = ofMain w ahead sync received ∧ w'.main.now = w.main.now ∧
      w'.main.pc = if (ofMain w ahead sync received).receivingProcesses then .receive
        else Dual.Main.behindReceive w.main.now := by
  rw [Dual.World.mainNext, hpc] at h
  obtain rfl := Except.ok.inj h
  exact ⟨rfl, rfl, rfl⟩

/-- **A turn of the loop of `receiveProcesses`.** -/
theorem receiveProcesses_hear {s : RRState}
    (hrcv : MsgQueue.rcv ProcessData.mtype (-5) s.msgq = some (msg, rest)) :
    ∃ s', s.receiveProcesses = .ok s' ∧
      ofRR s' ahead received =
        (hear s.receiveNow msg (ofRR { s with msgq := rest } ahead received)).1 ∧
      s'.pc = if (hear s.receiveNow msg (ofRR { s with msgq := rest } ahead received)).2 then .algo
        else s.pc := by
  rw [RRState.receiveProcesses, hrcv]
  simp only [hear]
  by_cases h1 : msg.mtype = 1
  · simp only [if_pos h1]
    exact ⟨_, rfl, rfl, rfl⟩
  by_cases h2 : msg.mtype = 2
  · by_cases hnew : msg.arrival ≥ s.receiveNow
    · simp only [if_neg h1, if_pos h2, if_pos hnew]
      exact ⟨_, rfl, rfl, rfl⟩
    · simp only [if_neg h1, if_pos h2, if_neg hnew]
      exact ⟨_, rfl, rfl, rfl⟩
  by_cases h5 : msg.mtype = 5
  · simp only [if_neg h1, if_neg h2, if_pos h5]
    exact ⟨_, rfl, rfl, rfl⟩
  · simp only [if_neg h1, if_neg h2, if_neg h5]
    exact ⟨_, rfl, rfl, rfl⟩

/-- **A turn of the loop of `scheduler.c` that receives.** -/
theorem receive_hear {w : Dual.World} (sync : ℤ)
    (hrcv : MsgQueue.rcv ProcessData.mtype (-5) w.msgq = some (msg, rest)) :
    ∃ w' sync', w.receive = .ok w' ∧
      ofMain w' ahead sync' received =
        (hear w.main.now msg (ofMain { w with msgq := rest } ahead sync received)).1 ∧
      w'.main.pc = if (hear w.main.now msg (ofMain { w with msgq := rest } ahead sync received)).2
        then Dual.Main.behindReceive w.main.now else w.main.pc := by
  rw [Dual.World.receive, hrcv]
  simp only [hear]
  by_cases h1 : msg.mtype = 1
  · simp only [if_pos h1]
    exact ⟨_, sync, rfl, rfl, rfl⟩
  by_cases h2 : msg.mtype = 2
  · by_cases hnew : msg.arrival ≥ w.main.now
    · simp only [if_neg h1, if_pos h2, if_pos hnew]
      exact ⟨_, msg.arrival, rfl, rfl, rfl⟩
    · simp only [if_neg h1, if_pos h2, if_neg hnew]
      exact ⟨_, sync, rfl, rfl, rfl⟩
  by_cases h5 : msg.mtype = 5
  · simp only [if_neg h1, if_neg h2, if_pos h5]
    exact ⟨_, sync, rfl, rfl, rfl⟩
  · simp only [if_neg h1, if_neg h2, if_neg h5]
    exact ⟨_, sync, rfl, rfl, rfl⟩

end Reception

end CpuScheduler
