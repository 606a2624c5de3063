import CpuScheduler.Lib.Runs
import CpuScheduler.RR.Basic

/-!
# The scheduler, its children, the generator and the clock

The parties of a run and their interleaving. The process generator
(`process_generator/process_generator.c`) looks at the clock, sends the processes
that are due, then a message for the tick, and after the last process the message
that ends the reception. The clock only goes forward; a step of the scheduler reads
it many times, and its readings lie between the clock before the step and the clock
after it.

Nothing is assumed here about how fast anybody is: a child may take its permit late,
the scheduler may miss ticks, and the generator may lag behind or run ahead.
-/

namespace CpuScheduler

/-- The process generator. `current` is the tick it is sending for, between its look
at the clock and its message for the tick. -/
structure Generator where
  queue : List ProcessData
  /-- What has been sent, in this order. -/
  sent : List ProcessData
  lastTime : ℤ
  current : Option ℤ
  done : Bool

/-- A state of the whole system. -/
structure World where
  rr : RRState
  clock : ℤ
  gen : Generator

namespace World

/-- The message of the generator for a tick. Only its type and its tick are set. -/
def syncMsg (t : ℤ) : ProcessData where
  mtype := 2
  id := 0
  arrival := t
  runtime := 0
  priority := 0
  base := 0
  limit := 0

/-- The last message of the generator. Only its type is set. -/
def lastMsg : ProcessData := { syncMsg 0 with mtype := 5 }

/-- A message is put into the queue of the scheduler. -/
def post (w : World) (d : ProcessData) (g : Generator) : World :=
  { w with rr := { w.rr with msgq := w.rr.msgq ++ [d] }, gen := g }

/-- The readings of a step lie between the clock before it and the clock after it. -/
def Readings (clk : Clk) (t t' : ℤ) : Prop := t ≤ t' ∧ ∀ x, t ≤ clk x ∧ clk x ≤ t'

/-- Whose move it is. -/
inductive Event
  /-- The scheduler goes on to its next cut, with these readings; then the clock shows
  `t`. -/
  | sched (clk : Clk) (t : ℤ)
  /-- The child of a process takes a permit and executes for a tick, or exits. -/
  | child (p : Ptr)
  /-- The generator looks at the clock, which shows `t`. -/
  | observe (t : ℤ)
  /-- The generator sends a process that is due, the message for the tick, or the last
  message. -/
  | send | sync | last

/-- **The steps of the system.** -/
inductive Step (P : Params) : Event → World → World → Prop
  | sched {w : World} {clk : Clk} {s : RRState} {t : ℤ} (hclk : Readings clk w.clock t)
      (h : w.rr.phase P clk = .ok s) : Step P (.sched clk t) w { w with rr := s, clock := t }
  | child {w : World} {p : Ptr} {s : RRState} (h : w.rr.childStep p = some s) :
      Step P (.child p) w { w with rr := s }
  | observe {w : World} {t : ℤ} (hq : w.gen.queue ≠ []) (hcur : w.gen.current = none)
      (ht : w.clock ≤ t) :
      Step P (.observe t) w { w with
        clock := t
        gen := { w.gen with current := if t = w.gen.lastTime then none else some t } }
  | send {w : World} {t : ℤ} {d : ProcessData} {q : List ProcessData}
      (hcur : w.gen.current = some t) (hq : w.gen.queue = d :: q) (hdue : d.arrival ≤ t) :
      Step P .send w (w.post d { w.gen with queue := q, sent := w.gen.sent ++ [d] })
  | sync {w : World} {t : ℤ} (hcur : w.gen.current = some t)
      (hq : ∀ d ∈ w.gen.queue.head?, t < d.arrival) :
      Step P .sync w (w.post (syncMsg t) { w.gen with lastTime := t, current := none })
  | last {w : World} (hq : w.gen.queue = []) (hcur : w.gen.current = none)
      (hdone : w.gen.done = false) : Step P .last w (w.post lastMsg { w.gen with done := true })

/-- What the queue of `process_generator` holds at the start: messages of type 1, with a
positive runtime, as it checks when it reads them, and with distinct ids, as the
input format promises. -/
structure Workload (l : List ProcessData) : Prop where
  mtype : ∀ d ∈ l, d.mtype = 1
  runtime : ∀ d ∈ l, 0 < d.runtime
  ids : (l.map ProcessData.id).Nodup

theorem workload_sole (limit : ℤ) : Workload [soleProcess limit] := by
  refine ⟨fun d hd => ?_, fun d hd => ?_, List.nodup_singleton _⟩
  · rw [List.mem_singleton.mp hd]
    rfl
  · rw [List.mem_singleton.mp hd]
    exact three_pos

/-- The system, started on a list of processes at the time the clock shows. -/
def start (l : List ProcessData) (t : ℤ) : World where
  rr := RRState.init
  clock := t
  gen := { queue := l, sent := [], lastTime := -1, current := none, done := false }

/-- The runs on a workload whose processes are admissible. The clock starts at a
nonnegative time. -/
def systemOn (P : Params) (adm : ProcessData → Prop) : TransitionSystem World where
  init w := ∃ l t, Workload l ∧ (∀ d ∈ l, adm d) ∧ 0 ≤ t ∧ w = start l t
  step w w' := ∃ e, Step P e w w'

/-- All runs. -/
def system (P : Params) : TransitionSystem World := systemOn P fun _ => True

/-- The runs all of whose steps meet a condition. -/
def systemIf (P : Params) (adm : ProcessData → Prop) (C : World → Event → Prop) :
    TransitionSystem World where
  init := (systemOn P adm).init
  step w w' := ∃ e, Step P e w w' ∧ C w e

theorem reachable_mono {P : Params} {adm adm' : ProcessData → Prop} (hadm : ∀ d, adm d → adm' d)
    {w : World} (h : (systemOn P adm).Reachable w) : (systemOn P adm').Reachable w := by
  refine TransitionSystem.Reachable.map (S := systemOn P adm) (T := systemOn P adm') (f := id)
    ?_ (fun w w' _ hst => Or.inl hst) h
  rintro w ⟨l, t, hl, hd, ht, he⟩
  exact ⟨l, t, hl, fun d hm => hadm d (hd d hm), ht, he⟩

theorem reachable_of_if {P : Params} {adm : ProcessData → Prop} {C : World → Event → Prop}
    {w : World} (h : (systemIf P adm C).Reachable w) : (systemOn P adm).Reachable w := by
  induction h with
  | init h => exact .init h
  | step _ hst ih =>
    obtain ⟨e, hst, -⟩ := hst
    exact ih.step ⟨e, hst⟩

/-! ### Explicit runs -/

/-- The readings after `wait_N_secs`, in `RR_algo` and in `runProcess`. -/
def afterWait : ClkSite → Bool
  | .waitEnd | .nextPreemption | .start | .startLog | .resume | .resumeLog => true
  | .faultTentative | .faultDelay | .faultLog | .swapBase | .swapDelay | .swapLog => true
  | _ => false

/-- The clock shows `a`, and from the end of a wait on `b`. -/
def readings (a b : ℤ) : Clk := fun x => if afterWait x then b else a

theorem readings_between {a b t : ℤ} (hab : a ≤ b) (ht : t ≤ a) : Readings (readings a b) t b := by
  refine ⟨le_trans ht hab, fun x => ?_⟩
  unfold readings
  split_ifs <;> omega

/-- A move of an explicit run. The scheduler reads `a` and, from the end of a wait on,
`b`. -/
inductive Move
  | sched (a b : ℤ)
  | child (p : Ptr)
  | observe (t : ℤ)
  | send | sync | last
deriving DecidableEq, Repr

/-- The event of a move. -/
def Move.event : Move → Event
  | .sched a b => .sched (readings a b) b
  | .child p => .child p
  | .observe t => .observe t
  | .send => .send
  | .sync => .sync
  | .last => .last

/-- Make a move. -/
def play (P : Params) (w : World) : Move → Option World
  | .sched a b =>
    if a ≤ b ∧ w.clock ≤ a then
      match w.rr.phase P (readings a b) with
      | .ok s => some { w with rr := s, clock := b }
      | .error _ => none
    else none
  | .child p => (w.rr.childStep p).map fun s => { w with rr := s }
  | .observe t =>
    if w.gen.queue ≠ [] ∧ w.gen.current = none ∧ w.clock ≤ t then
      some { w with
        clock := t
        gen := { w.gen with current := if t = w.gen.lastTime then none else some t } }
    else none
  | .send =>
    match w.gen.current, w.gen.queue with
    | some t, d :: q =>
      if d.arrival ≤ t then
        some (w.post d { w.gen with queue := q, sent := w.gen.sent ++ [d] }) else none
    | _, _ => none
  | .sync =>
    match w.gen.current with
    | some t =>
      if ∀ d ∈ w.gen.queue.head?, t < d.arrival then
        some (w.post (syncMsg t) { w.gen with lastTime := t, current := none }) else none
    | none => none
  | .last =>
    if w.gen.queue = [] ∧ w.gen.current = none ∧ w.gen.done = false then
      some (w.post lastMsg { w.gen with done := true }) else none

/-- Make several moves. -/
def playAll (P : Params) : World → List Move → Option World
  | w, [] => some w
  | w, e :: l => (w.play P e).bind fun w => playAll P w l

/-- **A move is a step.** -/
theorem play_step {P : Params} {w w' : World} {e : Move} (h : w.play P e = some w') :
    Step P e.event w w' := by
  cases e with
  | sched a b =>
    simp only [play] at h
    split_ifs at h with hab
    split at h
    · rename_i s hs
      obtain rfl := Option.some.inj h
      exact .sched (readings_between hab.1 hab.2) hs
    · exact nomatch h
  | child p =>
    obtain ⟨s, hs, rfl⟩ := Option.map_eq_some_iff.mp h
    exact .child hs
  | observe t =>
    rw [play] at h
    by_cases hc : w.gen.queue ≠ [] ∧ w.gen.current = none ∧ w.clock ≤ t
    · rw [if_pos hc] at h
      exact Option.some.inj h ▸ .observe hc.1 hc.2.1 hc.2.2
    · rw [if_neg hc] at h
      exact nomatch h
  | send =>
    simp only [play] at h
    split at h
    · rename_i t d q hcur hq
      split_ifs at h with hdue
      obtain rfl := Option.some.inj h
      exact .send hcur hq hdue
    · exact nomatch h
  | sync =>
    simp only [play] at h
    split at h
    · rename_i t hcur
      split_ifs at h with hq
      obtain rfl := Option.some.inj h
      exact .sync hcur hq
    · exact nomatch h
  | last =>
    simp only [play] at h
    split_ifs at h with hc
    obtain rfl := Option.some.inj h
    exact .last hc.1 hc.2.1 hc.2.2

/-- **An explicit run is a run.** -/
theorem playAll_reachable {P : Params} {adm : ProcessData → Prop} {w w' : World}
    (hw : (systemOn P adm).Reachable w) : ∀ {l : List Move}, playAll P w l = some w' →
      (systemOn P adm).Reachable w' := by
  intro l
  induction l generalizing w with
  | nil =>
    intro h
    exact Option.some.inj h ▸ hw
  | cons e l ih =>
    intro h
    obtain ⟨w₁, h₁, h⟩ := Option.bind_eq_some_iff.mp h
    exact ih (hw.step ⟨e.event, play_step h₁⟩) h

/-- Make several moves, each of which passes a check. -/
def playIf (P : Params) (chk : World → Move → Bool) : World → List Move → Option World
  | w, [] => some w
  | w, e :: l => if chk w e then (w.play P e).bind fun w => playIf P chk w l else none

/-- **An explicit run that is checked is a run that meets the condition.** -/
theorem playIf_reachable {P : Params} {adm : ProcessData → Prop} {C : World → Event → Prop}
    {chk : World → Move → Bool}
    (hchk : ∀ w e, (systemIf P adm C).Reachable w → chk w e = true → C w e.event) {w w' : World}
    (hw : (systemIf P adm C).Reachable w) : ∀ {l : List Move}, playIf P chk w l = some w' →
      (systemIf P adm C).Reachable w' := by
  intro l
  induction l generalizing w with
  | nil =>
    intro h
    exact Option.some.inj h ▸ hw
  | cons e l ih =>
    intro h
    rw [playIf] at h
    split_ifs at h with hc
    obtain ⟨w₁, h₁, h⟩ := Option.bind_eq_some_iff.mp h
    exact ih (hw.step ⟨e.event, play_step h₁, hchk w e hw hc⟩) h

end World

end CpuScheduler
