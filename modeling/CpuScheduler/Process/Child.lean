import CpuScheduler.RR.Basic

/-!
# The loop of a child

`process/RR_process.c`, from its loop on, for one child by itself: what it writes to the
shared cell, sends and signals, as a function of the number of permits it has been given.
One turn of the loop is the function `CpuScheduler.Child.tick`, and it is what a child does
in the system of the scheduler (`CpuScheduler.RRState.childTick_eq`).

In each turn the child sends at most one request: the next one, if its tick is the number
of turns so far. Requests that share a tick are therefore not all sent, and the first
one that has missed its tick is never sent, nor is any behind it. When the ticks of a
list do not decrease, all of it is sent exactly if they increase
(`CpuScheduler.Child.issues_iff`).
-/

namespace CpuScheduler

/-- What can be seen of a child from outside: the permits it has taken, the shared cell, its
messages, how often it has raised `SIGUSR1`, and whether it has exited. -/
structure View where
  taken : ℕ
  cell : ℤ
  sent : List Request
  signals : ℕ
  exited : Bool
deriving DecidableEq, Repr

namespace Child

variable {id r t : ℤ} {reqs : List Request} {req : Request} {c : Child} {v : View} {n : ℕ}

/-- A child in front of its loop. -/
def spawn (id r : ℤ) (reqs : List Request) : Child where
  id := id
  remainingtime := r
  runningTime := 0
  reqs := reqs
  stopped := false
  exited := false

/-- One turn of the loop, after `down` has returned, and the message that is sent in it. -/
def tick (c : Child) : Child × List Request :=
  ({ c with
    reqs := (RRState.requestOf c).2, remainingtime := c.remainingtime - 1,
    runningTime := c.runningTime + 1 },
    (RRState.requestOf c).1)

/-- The loop, and what follows it, up to the state in which all `n` permits are taken or the
child has exited. -/
def loop : ℕ → Child → View → View
  | n, c, v =>
    if c.remainingtime > 0 then
      match n with
      | 0 => v
      | n + 1 => loop n c.tick.1 { v with
          taken := v.taken + 1, cell := c.tick.1.remainingtime, sent := v.sent ++ c.tick.2 }
    else { v with signals := v.signals + 1, exited := true }

/-- The messages of `n` turns. -/
def sends : ℕ → Child → List Request
  | 0, _ => []
  | n + 1, c => c.tick.2 ++ sends n c.tick.1

/-- **The loop in closed form.** As long as there are permits, the child takes one for each
tick it has left; it raises `SIGUSR1` after the last of them. -/
theorem loop_eq (n : ℕ) : ∀ {k : ℕ} {c : Child} {v : View}, c.remainingtime = k → v.cell = k →
    loop n c v =
      { taken := v.taken + min n k
        cell := (k - n : ℕ)
        sent := v.sent ++ sends (min n k) c
        signals := if k ≤ n then v.signals + 1 else v.signals
        exited := v.exited || decide (k ≤ n) } := by
  induction n with
  | zero =>
    intro k c v hk hv
    cases k with
    | zero =>
      rw [loop, if_neg (by omega)]
      simp only [min_self, Nat.add_zero, Nat.sub_self, hv, sends, List.append_nil, le_refl,
        if_true, decide_true, Bool.or_true]
    | succ k =>
      have hk0 : ¬ k + 1 ≤ 0 := by omega
      rw [loop, if_pos (by omega), if_neg hk0, decide_eq_false hk0]
      simp only [Nat.zero_min, Nat.add_zero, Nat.sub_zero, ← hv, sends, List.append_nil,
        Bool.or_false]
  | succ n ih =>
    intro k c v hk hv
    cases k with
    | zero =>
      rw [loop, if_neg (by omega)]
      simp only [Nat.min_zero, Nat.add_zero, Nat.zero_sub, hv, sends, List.append_nil,
        Nat.zero_le, if_true, decide_true, Bool.or_true]
    | succ k =>
      have hc : c.tick.1.remainingtime = k := by
        show c.remainingtime - 1 = k
        omega
      rw [loop, if_pos (by omega), ih hc hc]
      simp only [Nat.succ_min_succ, Nat.add_sub_add_right, Nat.add_le_add_iff_right, sends,
        List.append_assoc, Nat.add_assoc, Nat.add_comm 1]

/-! ### Which requests are sent -/

/-- A request as it is sent. -/
def stamped (id : ℤ) (req : Request) : Request := { req with mtype := id }

/-- A request that has missed its tick is never sent, nor is any behind it. -/
theorem sends_late (n : ℕ) : ∀ {c : Child}, c.reqs = req :: reqs → req.tick < c.runningTime →
    sends n c = [] := by
  induction n with
  | zero => exact fun _ _ => rfl
  | succ n ih =>
    intro c hreqs hlate
    have hnone : RRState.requestOf c = ([], req :: reqs) := by
      simp only [RRState.requestOf, hreqs]
      rw [if_neg (by omega)]
    have hc : c.tick.1.reqs = req :: reqs := congrArg Prod.snd hnone
    have hlate' : req.tick < c.tick.1.runningTime := by
      show req.tick < c.runningTime + 1
      omega
    rw [sends, ih hc hlate', List.append_nil]
    exact congrArg Prod.fst hnone

/-- The request whose tick it is is sent, if the queue takes its type. -/
theorem tick_due (hreqs : c.reqs = req :: reqs) (hdue : c.runningTime = req.tick) :
    c.tick.2 = (if c.id ≥ 1 then [stamped c.id req] else []) ∧ c.tick.1.reqs = reqs := by
  have h : RRState.requestOf c = (if c.id ≥ 1 then [stamped c.id req] else [], reqs) := by
    simp only [RRState.requestOf, hreqs]
    rw [if_pos hdue]
    rfl
  exact ⟨congrArg Prod.fst h, congrArg Prod.snd h⟩

/-- Otherwise nothing is sent. -/
theorem tick_early (hreqs : ∀ req ∈ c.reqs.head?, c.runningTime ≠ req.tick) :
    c.tick.2 = [] ∧ c.tick.1.reqs = c.reqs := by
  have h : RRState.requestOf c = ([], c.reqs) := by
    rw [RRState.requestOf]
    cases hc : c.reqs with
    | nil => rfl
    | cons req rest =>
      dsimp only
      rw [if_neg (hreqs req (by rw [hc]; rfl))]
  exact ⟨congrArg Prod.fst h, congrArg Prod.snd h⟩

/-- **Increasing ticks**: everything is sent, in the order of the file. -/
theorem sends_all (n : ℕ) : ∀ {c : Child}, (c.reqs ≠ [] → 1 ≤ c.id) →
    c.reqs.Pairwise (fun q q' => q.tick < q'.tick) →
    (∀ q ∈ c.reqs, c.runningTime ≤ q.tick ∧ q.tick < c.runningTime + n) →
    sends n c = c.reqs.map (stamped c.id) := by
  induction n with
  | zero =>
    intro c _ _ hin
    have hnil : c.reqs = [] := List.eq_nil_iff_forall_not_mem.mpr fun q hq => by
      have := hin q hq
      omega
    rw [hnil]
    rfl
  | succ n ih =>
    intro c hid hlt hin
    have htime : c.tick.1.runningTime = c.runningTime + 1 := rfl
    have hid' : c.tick.1.id = c.id := rfl
    by_cases hdue : ∃ req ∈ c.reqs.head?, c.runningTime = req.tick
    · obtain ⟨req, hreq, hdue⟩ := hdue
      obtain ⟨rest, hreqs⟩ := List.head?_eq_some_iff.mp hreq
      obtain ⟨hsent, hrest⟩ := tick_due hreqs hdue
      rw [hreqs] at hlt hin hid
      obtain ⟨hhead, htail⟩ := List.pairwise_cons.mp hlt
      rw [sends, ih (c := c.tick.1) (fun _ => hid (List.cons_ne_nil _ _)) (by rwa [hrest])
        (fun q hq => ?_), hsent, if_pos (hid (List.cons_ne_nil _ _)), hrest, hid', hreqs]
      · rfl
      · rw [hrest] at hq
        have h1 := hhead q hq
        have h2 := hin q (List.mem_cons_of_mem _ hq)
        push_cast at h2
        omega
    · -- it is not yet the tick of the next request
      have hearly : ∀ req ∈ c.reqs.head?, c.runningTime ≠ req.tick := fun req hreq he =>
        hdue ⟨req, hreq, he⟩
      obtain ⟨hsent, hrest⟩ := tick_early hearly
      rw [sends, hsent, ih (c := c.tick.1) (by rwa [hrest]) (by rwa [hrest]) (fun q hq => ?_),
        hrest, hid', List.nil_append]
      rw [hrest] at hq
      have h2 := hin q hq
      push_cast at h2
      have h1 : c.runningTime ≠ q.tick := by
        cases hc : c.reqs with
        | nil => exact nomatch hc ▸ hq
        | cons req rest =>
          have hhead := hearly req (by rw [hc]; rfl)
          rw [hc] at hlt hq hin
          have hr := hin req List.mem_cons_self
          rcases List.mem_cons.mp hq with rfl | hq
          · exact hhead
          · have := (List.pairwise_cons.mp hlt).1 q hq
            omega
      omega

/-- A child without a proper id sends nothing. -/
theorem sends_invalid (n : ℕ) : ∀ {c : Child}, c.id < 1 → sends n c = [] := by
  induction n with
  | zero => exact fun _ => rfl
  | succ n ih =>
    intro c hid
    have hnone : c.tick.2 = [] := by
      by_cases hdue : ∃ req ∈ c.reqs.head?, c.runningTime = req.tick
      · obtain ⟨req, hreq, hdue⟩ := hdue
        obtain ⟨rest, hreqs⟩ := List.head?_eq_some_iff.mp hreq
        rw [(tick_due hreqs hdue).1, if_neg (by omega)]
      · exact (tick_early fun req hreq he => hdue ⟨req, hreq, he⟩).1
    rw [sends, hnone, ih (c := c.tick.1) hid, List.append_nil]

/-- **If everything is sent**, the ticks increase. -/
theorem increasing_of_sends (n : ℕ) : ∀ {c : Child},
    c.reqs.Pairwise (fun q q' => q.tick ≤ q'.tick) → (∀ q ∈ c.reqs, c.runningTime ≤ q.tick) →
    sends n c = c.reqs.map (stamped c.id) →
    (c.reqs ≠ [] → 1 ≤ c.id) ∧ c.reqs.Pairwise (fun q q' => q.tick < q'.tick) := by
  induction n with
  | zero =>
    intro c _ _ h
    have hnil : c.reqs = [] := List.map_eq_nil_iff.mp h.symm
    rw [hnil]
    exact ⟨fun hne => absurd rfl hne, List.Pairwise.nil⟩
  | succ n ih =>
    intro c hle hin h
    have hid' : c.tick.1.id = c.id := rfl
    have htime : c.tick.1.runningTime = c.runningTime + 1 := rfl
    by_cases hdue : ∃ req ∈ c.reqs.head?, c.runningTime = req.tick
    · obtain ⟨req, hreq, hdue⟩ := hdue
      obtain ⟨rest, hreqs⟩ := List.head?_eq_some_iff.mp hreq
      obtain ⟨hsent, hrest⟩ := tick_due hreqs hdue
      rw [hreqs] at hle hin h
      obtain ⟨hhead, htail⟩ := List.pairwise_cons.mp hle
      have hid : 1 ≤ c.id := by
        by_contra hid
        rw [sends_invalid _ (by omega)] at h
        exact nomatch h
      rw [sends, hsent, if_pos hid, List.map_cons] at h
      have hlast : sends n c.tick.1 = rest.map (stamped c.id) := (List.cons.inj h).2
      -- had one of the others the same tick, the next one would have missed it
      have hlate : ∀ q ∈ rest, c.runningTime + 1 ≤ q.tick := by
        intro q hq
        cases hr : rest with
        | nil => exact nomatch hr ▸ hq
        | cons q' rest' =>
          by_contra hlt
          have hq' : q'.tick < c.runningTime + 1 := by
            rw [hr] at hq htail
            rcases List.mem_cons.mp hq with rfl | hq
            · omega
            · have := (List.pairwise_cons.mp htail).1 q hq
              omega
          rw [sends_late n (hrest.trans hr) hq', hr] at hlast
          exact nomatch hlast
      have hnext := ih (c := c.tick.1) (by rwa [hrest]) (by rwa [hrest, htime])
        (by rwa [hrest, hid'])
      rw [hrest] at hnext
      rw [hreqs]
      refine ⟨fun _ => hid, List.pairwise_cons.mpr ⟨fun q hq => ?_, hnext.2⟩⟩
      have := hlate q hq
      omega
    · obtain ⟨hsent, hrest⟩ := tick_early fun req hreq he => hdue ⟨req, hreq, he⟩
      rw [sends, hsent, List.nil_append] at h
      have hnext := ih (c := c.tick.1) (by rwa [hrest]) (fun q hq => ?_) (by rwa [hrest, hid'])
      · rwa [hrest, hid'] at hnext
      · rw [hrest] at hq
        rw [htime]
        cases hc : c.reqs with
        | nil => exact nomatch hc ▸ hq
        | cons req rest =>
          have hne : c.runningTime ≠ req.tick := fun he => hdue ⟨req, by rw [hc]; rfl, he⟩
          rw [hc] at hq hle hin
          have hreq := hin req List.mem_cons_self
          rcases List.mem_cons.mp hq with rfl | hq
          · omega
          · have := (List.pairwise_cons.mp hle).1 q hq
            omega

/-! ### The result -/

/-- The child with the given id, runtime and requests, when it has been given `n` permits. -/
def run (id r : ℤ) (reqs : List Request) (n : ℕ) : View :=
  loop n (spawn id r reqs) { taken := 0, cell := r, sent := [], signals := 0, exited := false }

/-- **Every request is sent**: once, in the order of the file, by the last permit. -/
def Issues (id r : ℤ) (reqs : List Request) : Prop :=
  (run id r reqs r.toNat).sent = reqs.map (stamped id)

theorem run_sent (hr : 0 < r) : (run id r reqs r.toNat).sent = sends r.toNat (spawn id r reqs) := by
  have hcell : r = (r.toNat : ℤ) := by omega
  rw [run, loop_eq r.toNat (k := r.toNat) hcell hcell, min_self]
  rfl

/-- **When a child issues every request.** For a list whose ticks do not decrease and lie
within the runtime, exactly if the ticks increase, and the id is one that the message queue
takes. -/
theorem issues_iff (hr : 0 < r) (hle : reqs.Pairwise fun q q' => q.tick ≤ q'.tick)
    (hin : ∀ q ∈ reqs, 0 ≤ q.tick ∧ q.tick < r) :
    Issues id r reqs ↔ (reqs ≠ [] → 1 ≤ id) ∧ reqs.Pairwise fun q q' => q.tick < q'.tick := by
  rw [Issues, run_sent hr]
  constructor
  · exact fun h =>
      increasing_of_sends r.toNat (c := spawn id r reqs) hle (fun q hq => (hin q hq).1) h
  · rintro ⟨hid, hlt⟩
    refine sends_all r.toNat (c := spawn id r reqs) hid hlt fun q hq => ?_
    have := hin q hq
    simp only [spawn]
    omega

/-- Two requests, at ticks 0 and 1 of a runtime of 2. -/
theorem issues_iff_two : Issues 1 2 [⟨1, 0, "0".toList, 'r'⟩, ⟨1, 1, "16".toList, 'w'⟩] :=
  (issues_iff (by decide) (by decide) (by decide)).mpr ⟨fun _ => by decide, by decide⟩

/-- **Two requests at tick 0** of a runtime of 2: the second one is not sent. -/
theorem not_issues_sameTick :
    ¬∀ (id r : ℤ) (reqs : List Request), 1 ≤ id → 0 < r → reqs.length ≤ 100 →
      (reqs.Pairwise fun q q' => q.tick ≤ q'.tick) → (∀ q ∈ reqs, 0 ≤ q.tick ∧ q.tick < r) →
      Issues id r reqs := by
  intro hall
  have h := hall 1 2 [⟨1, 0, "0".toList, 'r'⟩, ⟨1, 0, "16".toList, 'w'⟩] (by decide) (by decide)
    (by decide) (by decide) (by decide)
  have hsent : (run 1 2 [⟨1, 0, "0".toList, 'r'⟩, ⟨1, 0, "16".toList, 'w'⟩] 2).sent =
      [⟨1, 0, "0".toList, 'r'⟩] := by decide
  exact nomatch hsent.symm.trans h

end Child

namespace RRState

/-- **A child of the scheduler executes a turn of the loop.** -/
theorem childTick_eq (s : RRState) (p : Ptr) (c : Child) : s.childTick p c = { s with
    sem := s.sem - 1
    reqMsgq := s.reqMsgq ++ c.tick.2
    shmRT := c.tick.1.remainingtime
    child := Function.update s.child p (some c.tick.1)
    executed := s.executed ++ [(p, s.lastTick)] } := rfl

end RRState

end CpuScheduler
