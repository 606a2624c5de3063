import CpuScheduler.Dual.Moves

/-!
# The routing loop

The loop of `FCFS_algo` reads the loads once, sends each ready process to the CPU that has
fewer processes so far, and then publishes the loads it has projected. A run of the loop is
followed here from the look at the loads on, with the messages it has put into the queues
(`CpuScheduler.Dual.Routing`), in any state of the program and whatever the other parties do
meanwhile.

| | |
|---|---|
| what the loop has done so far | `Routed` |
| one turn of the loop | `Routed.turn` |
| a run of the loop | `Routing.routed` |
| the loop comes to its end | `exists_publish` |

The difference of the counts goes down by one with each process until the counts are equal,
and from then on the ties go to the first CPU, so that it is 0 and 1 in turns (`Levels`).
-/

namespace CpuScheduler

namespace Dual

open Dual.World

variable {P : Params}

/-- The processes that go to a CPU, in their order. -/
def share (sent : List (Cpu × PCB)) (c : Cpu) : List PCB :=
  (sent.filter fun a => a.1 = c).map Prod.snd

theorem share_concat (sent : List (Cpu × PCB)) (c d : Cpu) (x : PCB) :
    share (sent ++ [(c, x)]) d = share sent d ++ if c = d then [x] else [] := by
  rw [share, List.filter_append, List.map_append, ← share]
  by_cases h : c = d
  · simp only [h, decide_true, List.filter_cons_of_pos, List.filter_nil, List.map_cons,
      List.map_nil, if_true]
  · simp only [h, decide_false, Bool.false_eq_true, not_false_eq_true, List.filter_cons_of_neg,
      List.filter_nil, List.map_nil, if_false]

/-- A slot after some more processes. -/
def Slot.add (s : Slot) (l : List PCB) : Slot where
  count := s.count + l.length
  totalRT := s.totalRT + (l.map PCB.runtime).sum

@[simp] theorem Slot.add_nil (s : Slot) : s.add [] = s := by
  simp only [Slot.add, List.length_nil, List.map_nil, List.sum_nil, Nat.cast_zero, add_zero]

theorem Slot.add_concat (s : Slot) (l : List PCB) (x : PCB) : s.add (l ++ [x]) =
    { count := (s.add l).count + 1, totalRT := (s.add l).totalRT + x.runtime } := by
  simp only [Slot.add, List.length_append, List.length_singleton, List.map_append, List.map_cons,
    List.map_nil, List.sum_append, List.sum_singleton, Nat.cast_add, Nat.cast_one, add_assoc]

/-- By how many processes the first CPU is ahead. -/
def lead (l : Load) : ℤ := (l .one).count - (l .two).count

/-- The counts after `n` processes have been routed: they come closer by one with each, until
they are equal. -/
def Levels (before after : ℤ) (n : ℕ) : Prop :=
  ((n : ℤ) ≤ |before| ∧ |after| = |before| - n) ∨
    (|before| ≤ n ∧ after = (n - |before|) % 2)

theorem levels_zero (a : ℤ) : Levels a a 0 :=
  Or.inl ⟨abs_nonneg a, by rw [Nat.cast_zero, sub_zero]⟩

/-- The next process goes to the CPU that is behind, and on a tie to the first one. -/
theorem Levels.succ {a b : ℤ} {n : ℕ} (h : Levels a b n) :
    Levels a (if b ≤ 0 then b + 1 else b - 1) (n + 1) := by
  rw [Levels] at h ⊢
  push_cast
  rcases h with ⟨hn, hb⟩ | ⟨hn, hb⟩
  · rcases le_or_gt b 0 with h0 | h0
    · rw [if_pos h0]
      rw [abs_of_nonpos h0] at hb
      rcases eq_or_lt_of_le h0 with rfl | hlt
      · right
        omega
      · left
        rw [abs_of_nonpos (by omega : b + 1 ≤ 0)]
        omega
    · rw [if_neg h0.not_ge]
      rw [abs_of_pos h0] at hb
      left
      rw [abs_of_nonneg (by omega : 0 ≤ b - 1)]
      omega
  · right
    refine ⟨by omega, ?_⟩
    split_ifs with h0
    · omega
    · omega

/-- The difference of the counts in closed form. -/
theorem Levels.abs_eq {a b : ℤ} {n : ℕ} (h : Levels a b n) :
    |b| = if (n : ℤ) ≤ |a| then |a| - n else (n - |a|) % 2 := by
  rcases h with ⟨hn, hb⟩ | ⟨hn, hb⟩
  · rw [if_pos hn, hb]
  · rw [hb, abs_of_nonneg (Int.emod_nonneg _ two_ne_zero)]
    split_ifs with hle
    · have : (n : ℤ) - |a| = 0 := by omega
      rw [this]
      omega
    · rfl

theorem lead_project (l : Load) (rt : ℤ) :
    lead (Main.project l (Main.routeTo l) rt) = if lead l ≤ 0 then lead l + 1 else lead l - 1 := by
  rw [lead, lead, Main.routeTo, Main.project]
  by_cases h : (l .one).count ≤ (l .two).count
  · rw [if_pos h, if_pos (by omega), Function.update_self,
      Function.update_of_ne (by exact nofun : Cpu.two ≠ Cpu.one)]
    dsimp only
    omega
  · rw [if_neg h, if_neg (by omega), Function.update_self,
      Function.update_of_ne (by exact nofun : Cpu.one ≠ Cpu.two)]
    dsimp only
    omega

/-- What the loop has to say for itself: the loads that it read, and the processes it routed
so far, each with its CPU. -/
structure Routed (snapshot projected : Load) (sent : List (Cpu × PCB)) : Prop where
  loads : ∀ c, projected c = (snapshot c).add (share sent c)
  levels : Levels (lead snapshot) (lead projected) sent.length

theorem Routed.nil (l : Load) : Routed l l [] where
  loads _ := (Slot.add_nil _).symm
  levels := levels_zero _

/-- **One turn of the loop.** -/
theorem Routed.turn {snapshot projected : Load} {sent : List (Cpu × PCB)}
    (h : Routed snapshot projected sent) (x : PCB) :
    Routed snapshot (Main.project projected (Main.routeTo projected) x.runtime)
      (sent ++ [(Main.routeTo projected, x)]) where
  loads c := by
    rw [share_concat, Main.project]
    by_cases hc : Main.routeTo projected = c
    · rw [if_pos hc, Slot.add_concat, ← h.loads, hc, Function.update_self]
    · rw [if_neg hc, List.append_nil, ← h.loads, Function.update_of_ne (Ne.symm hc)]
  levels := by
    rw [lead_project, List.length_append, List.length_singleton]
    exact h.levels.succ

/-! ### The moves of the loop -/

namespace World

variable {w : World} {l : Load} {x : PCB} {rest : List PCB}

theorem next_load (hpc : w.main.pc = .load) (hr : w.main.readyQueue ≠ []) :
    next P w .main = some (w.goto (.route w.load)) := by
  obtain ⟨x, rest, hr⟩ := List.exists_cons_of_ne_nil hr
  rw [next, mainNext, hpc]
  dsimp only
  rw [hr]
  rfl

theorem next_route_cons (hpc : w.main.pc = .route l) (hr : w.main.readyQueue = x :: rest) :
    next P w .main = some { w.sendProcessMsg (Main.routeTo l) (pcbToProcessData x 11) 1 with
      main := { w.main with
        readyQueue := rest, pc := .route (Main.project l (Main.routeTo l) x.runtime) }
      routed := w.routed ++ [x.id] } := by
  rw [next, mainNext, hpc]
  dsimp only
  rw [route, hr]
  rfl

theorem next_route_nil (hpc : w.main.pc = .route l) (hr : w.main.readyQueue = []) :
    next P w .main = some (w.goto (.publish l)) := by
  rw [next, mainNext, hpc]
  dsimp only
  rw [route, hr]
  rfl

theorem next_publish (hpc : w.main.pc = .publish l) :
    next P w .main = some ({ w with load := l }.goto .check) := by
  rw [next, mainNext, hpc]
  rfl

/-- **The loop comes to its end**, by the moves of the main scheduler alone. -/
theorem exists_publish (hpc : w.main.pc = .route l) : ∃ w' l',
    TransitionSystem.playAll (next P) w (List.replicate (w.main.readyQueue.length + 1) .main) =
      some w' ∧ w'.main.pc = .publish l' := by
  generalize hr : w.main.readyQueue = q
  induction q generalizing w l with
  | nil =>
    refine ⟨w.goto (.publish l), l, ?_, rfl⟩
    rw [List.length_nil, List.replicate_one, TransitionSystem.playAll, next_route_nil hpc hr]
    rfl
  | cons x rest ih =>
    rw [List.length_cons, List.replicate_succ, TransitionSystem.playAll, next_route_cons hpc hr]
    exact ih (w := { w.sendProcessMsg (Main.routeTo l) (pcbToProcessData x 11) 1 with
      main := { w.main with
        readyQueue := rest, pc := .route (Main.project l (Main.routeTo l) x.runtime) }
      routed := w.routed ++ [x.id] }) rfl rfl

end World

/-! ### Runs of the loop -/

/-- The state in a run of the loop, the loads that were read, the processes that were ready
then, and the messages that the loop has put into the queues. -/
structure Routing where
  world : World
  snapshot : Load
  ready : List PCB
  sent : Cpu → List ProcessData

namespace Routing

variable {r : Routing}

/-- What a step has put into the queue of a CPU. -/
def posted (w w' : World) (c : Cpu) : List ProcessData :=
  (w'.sub c).msgq.drop (w.sub c).msgq.length

/-- The loop begins in any state; it ends where the loads are published. -/
def system (P : Params) : TransitionSystem Routing where
  init r := ∃ w, w.main.pc = .load ∧ w.main.readyQueue ≠ [] ∧
    World.next P w .main = some r.world ∧ r.snapshot = w.load ∧
    r.ready = w.main.readyQueue ∧ r.sent = fun _ => []
  step r r' := ∃ e w', (∃ l, r.world.main.pc = .route l) ∧
    World.next P r.world e = some w' ∧ r' = { r with
      world := w'
      sent := if e = .main then fun c => r.sent c ++ posted r.world w' c else r.sent }

/-- Where the loop is, and what it has sent. -/
def Progress (r : Routing) : Prop := ∃ l as, Routed r.snapshot l as ∧
  as.map Prod.snd ++ r.world.main.readyQueue = r.ready ∧
  (∀ c, r.sent c = (share as c).map fun x => pcbToProcessData x 1) ∧
  (r.world.main.pc = .route l ∨ (r.world.main.pc = .publish l ∧ r.world.main.readyQueue = []))

theorem posted_sendProcessMsg (w : World) (c d : Cpu) (pd : ProcessData) (t : ℤ) :
    posted w (w.sendProcessMsg c pd t) d = if c = d then [{ pd with mtype := t }] else [] := by
  rw [posted]
  by_cases h : c = d
  · subst h
    rw [if_pos rfl, sendProcessMsg, setSub_sub_self, List.drop_left]
  · rw [if_neg h, sendProcessMsg, setSub_sub_of_ne _ _ (Ne.symm h), List.drop_length]

/-- **A run of the loop.** -/
theorem progress (h : (system P).Reachable r) : r.Progress := by
  refine h.invariant (fun r hr => ?_) fun r r' ih hst => ?_
  · obtain ⟨w, hpc, hne, hnext, hsnap, hready, hsent⟩ := hr
    obtain hw : w.goto (.route w.load) = r.world :=
      Option.some.inj ((next_load hpc hne).symm.trans hnext)
    refine ⟨w.load, [], hsnap ▸ Routed.nil _, ?_, fun c => by rw [hsent]; rfl, Or.inl ?_⟩
    · rw [← hw, hready]
      rfl
    · rw [← hw]
      rfl
  · obtain ⟨e, w', ⟨l, hpc⟩, hnext, rfl⟩ := hst
    obtain ⟨l', as, hrouted, hready, hsent, hl⟩ := ih
    obtain rfl : l' = l := by
      rcases hl with hl | ⟨hl, -⟩
      · exact MainPc.route.inj (hl.symm.trans hpc)
      · exact nomatch hl.symm.trans hpc
    by_cases he : e = .main
    · subst he
      cases hr : r.world.main.readyQueue with
      | nil =>
        obtain rfl := Option.some.inj ((next_route_nil hpc hr).symm.trans hnext)
        refine ⟨l', as, hrouted, hready, fun c => ?_, Or.inr ⟨rfl, hr⟩⟩
        have hno : posted r.world (r.world.goto (.publish l')) c = [] := List.drop_length
        rw [← hsent, ← List.append_nil (r.sent c), ← hno]
        rfl
      | cons x rest =>
        obtain rfl := Option.some.inj ((next_route_cons hpc hr).symm.trans hnext)
        refine ⟨_, as ++ [(Main.routeTo l', x)], hrouted.turn x, ?_, fun c => ?_, Or.inl rfl⟩
        · rw [hr] at hready
          rw [← hready, List.map_append, List.append_assoc]
          rfl
        · rw [if_pos rfl, share_concat, List.map_append, ← hsent]
          refine congrArg (r.sent c ++ ·) ?_
          refine (posted_sendProcessMsg r.world _ c (pcbToProcessData x 11) 1).trans ?_
          split_ifs <;> rfl
    · have hmain := (next_cases hnext).main_eq he
      refine ⟨l', as, hrouted, ?_, ?_, Or.inl ?_⟩
      · exact (congrArg (fun m : Main => _ ++ m.readyQueue) hmain).trans hready
      · simpa only [if_neg he] using hsent
      · exact (congrArg Main.pc hmain).trans hpc

/-- **The routing loop conserves and balances.** Whatever the loads that it has read, the ready
processes and the moves of the other parties, the loop comes to its end; each process has then
gone to one CPU, those of a CPU in the order of the ready queue, the loads that it publishes are
those that it has read together with the processes it has sent, and the difference `d` of the
counts has become `d - n` after `n` processes, or `n - d` modulo 2 where these are more. -/
theorem routing_balanced (h : (system P).Reachable r) :
    ((∃ l, r.world.main.pc = .route l) → ∃ w p, TransitionSystem.playAll (World.next P) r.world
      (List.replicate (r.world.main.readyQueue.length + 1) .main) = some w ∧
      w.main.pc = .publish p) ∧
    ∀ p, r.world.main.pc = .publish p →
      World.next P r.world .main = some ({ r.world with load := p }.goto .check) ∧
      (∃ as : List (Cpu × PCB), as.map Prod.snd = r.ready ∧
        (∀ c, r.sent c = (share as c).map fun x => pcbToProcessData x 1)) ∧
      (∀ c, p c = {
        count := (r.snapshot c).count + (r.sent c).length
        totalRT := (r.snapshot c).totalRT + ((r.sent c).map ProcessData.runtime).sum }) ∧
      |(p .one).count - (p .two).count| =
        let d := |(r.snapshot .one).count - (r.snapshot .two).count|
        if (r.ready.length : ℤ) ≤ d then d - r.ready.length else (r.ready.length - d) % 2 := by
  refine ⟨fun ⟨l, hpc⟩ => exists_publish hpc, fun p hpc => ?_⟩
  obtain ⟨l, as, hrouted, hready, hsent, hl⟩ := progress h
  obtain ⟨rfl, hnil⟩ : l = p ∧ r.world.main.readyQueue = [] := by
    rcases hl with hl | ⟨hl, hnil⟩
    · exact nomatch hl.symm.trans hpc
    · exact ⟨MainPc.publish.inj (hl.symm.trans hpc), hnil⟩
  have has : as.map Prod.snd = r.ready := by rw [← hready, hnil, List.append_nil]
  refine ⟨next_publish hpc, ⟨as, has, hsent⟩, fun c => ?_, ?_⟩
  · rw [hrouted.loads c, hsent c, List.length_map, List.map_map]
    rfl
  · have hlen : as.length = r.ready.length := by rw [← has, List.length_map]
    rw [← hlen]
    exact hrouted.levels.abs_eq

/-- A move of the loop, recorded. -/
def record (P : Params) (r : Routing) (e : Event) : Option Routing :=
  match r.world.main.pc with
  | .route _ => (World.next P r.world e).map fun w => { r with
      world := w
      sent := if e = .main then fun c => r.sent c ++ posted r.world w c else r.sent }
  | _ => none

theorem record_step {r r' : Routing} {e : Event} (h : record P r e = some r') :
    (system P).step r r' := by
  rw [record] at h
  split at h
  · rename_i l hpc
    obtain ⟨w, hw, rfl⟩ := Option.map_eq_some_iff.mp h
    exact ⟨e, w, ⟨l, hpc⟩, hw, rfl⟩
  · cases h

/-- The loads that are about to be published. -/
def published (r : Routing) : Option Load :=
  match r.world.main.pc with
  | .publish p => some p
  | _ => none

theorem published_eq_some {p : Load} (h : r.published = some p) :
    r.world.main.pc = .publish p := by
  rw [published] at h
  split at h
  · rename_i q hpc
    rw [hpc, Option.some.inj h]
  · cases h

/-- The first CPU is behind by two processes when `n + 1` processes are to be routed. -/
def behind (n : ℕ) : World :=
  { start [] with
    main := { Main.init with
      pc := .load
      readyQueue := (List.range (n + 1)).map fun i : ℕ =>
        createPCB { soleProcess 0 with id := (i : ℤ) + 1 } }
    load := fun c => if c = .one then ⟨0, 0⟩ else ⟨2, 7⟩ }

/-- The loop has read the loads. -/
def begun (n : ℕ) : Routing where
  world := (behind n).goto (.route (behind n).load)
  snapshot := (behind n).load
  ready := (behind n).main.readyQueue
  sent := fun _ => []

theorem begun_reachable (n : ℕ) : (system P).Reachable (begun n) := by
  have hne : (behind n).main.readyQueue ≠ [] := by
    show (List.range (n + 1)).map _ ≠ []
    rw [List.range_succ, List.map_append]
    exact List.concat_ne_nil _ _
  exact .init ⟨behind n, rfl, hne, next_load rfl hne, rfl, rfl, rfl⟩

/-- One process goes to the first CPU, which is then behind by one. Of four processes, three go
to the first CPU and one to the second, and the counts are equal. -/
theorem routing_balanced_behind :
    (∃ r p, (system ⟨1, 0⟩).Reachable r ∧ r.world.main.pc = .publish p ∧
      ((r.sent .one).map ProcessData.id, (r.sent .two).map ProcessData.id) = ([1], []) ∧
      |(p .one).count - (p .two).count| = 2 - 1) ∧
    ∃ r p, (system ⟨1, 0⟩).Reachable r ∧ r.world.main.pc = .publish p ∧
      ((r.sent .one).map ProcessData.id, (r.sent .two).map ProcessData.id) = ([1, 2, 3], [4]) ∧
      |(p .one).count - (p .two).count| = (4 - 2) % 2 := by
  have hrun : ∀ (n : ℕ) (sent : List ℤ × List ℤ),
      (TransitionSystem.playAll (record ⟨1, 0⟩) (begun n) (List.replicate (n + 2) .main)).bind
        (fun r => r.published.map fun _ => ((r.snapshot .one).count, (r.snapshot .two).count,
          r.ready.length, (r.sent .one).map ProcessData.id, (r.sent .two).map ProcessData.id)) =
        some (0, 2, n + 1, sent) →
      ∃ r p, (system ⟨1, 0⟩).Reachable r ∧ r.world.main.pc = .publish p ∧
        ((r.sent .one).map ProcessData.id, (r.sent .two).map ProcessData.id) = sent ∧
        |(p .one).count - (p .two).count| =
          if ((n + 1 : ℕ) : ℤ) ≤ |0 - 2| then |0 - 2| - ((n + 1 : ℕ) : ℤ)
          else (((n + 1 : ℕ) : ℤ) - |0 - 2|) % 2 := by
    intro n sent hrun
    obtain ⟨r, hr, hrun⟩ := Option.bind_eq_some_iff.mp hrun
    obtain ⟨p, hp, he⟩ := Option.map_eq_some_iff.mp hrun
    simp only [Prod.mk.injEq] at he
    obtain ⟨hone, htwo, hlen, hsent⟩ := he
    have hreach : (system ⟨1, 0⟩).Reachable r :=
      TransitionSystem.Reachable.playAll (fun _ _ _ h => record_step h) (begun_reachable n) hr
    have hpc := published_eq_some hp
    obtain ⟨-, -, -, hlevel⟩ := (routing_balanced hreach).2 p hpc
    rw [hone, htwo, hlen] at hlevel
    exact ⟨r, p, hreach, hpc, hsent, hlevel⟩
  obtain ⟨r, p, hr, hpc, hsent, hlevel⟩ := hrun 0 ([1], []) (by decide +kernel)
  obtain ⟨r', p', hr', hpc', hsent', hlevel'⟩ := hrun 3 ([1, 2, 3], [4]) (by decide +kernel)
  exact ⟨⟨r, p, hr, hpc, hsent, hlevel.trans (by decide)⟩,
    r', p', hr', hpc', hsent', hlevel'.trans (by decide)⟩

end Routing

end Dual

end CpuScheduler
