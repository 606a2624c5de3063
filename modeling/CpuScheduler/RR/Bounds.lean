import CpuScheduler.Mmu.Laws
import CpuScheduler.RR.Conservation

/-!
# Page tables are indexed inside their bounds, except at the limit

Along every run over processes with limits from 1 on, each page table has `limit`
entries (`CpuScheduler.World.reachable_placed`). So `checkReqs` stays inside the page
tables for every request of a process with a page table, except for the page whose
number is the limit itself: `check` compares with `>`, and reads one entry past the end
of the table (`CpuScheduler.World.checkReqs_inBounds_iff`). A page above the limit is
dropped.
-/

namespace CpuScheduler

namespace RRState

open Fallible Mem

variable {K : Mem → Prop} {P : Params} {clk : Clk} {s : RRState} {p : Ptr} {x : PCB}
  {f : Fin 32} {v : ℤ} {req : Request} {rest : List Request}

/-- **Inside the table, `check` does not leave it.** -/
theorem check_ne_outOfBounds {m : Mem} {c : Char} (hx : m.Live p x) (hf : m.TableAt x f)
    (h0 : 0 ≤ v) (hv : v < x.limit) : m.check p v c ≠ .error .outOfBounds := by
  obtain ⟨pt, e, hpt, he⟩ := hf.entryOf_some h0 hv
  rw [check, pcb_eq hx.2, ok_bind, hf.index, frameAt_coe, ok_bind, if_neg (by omega),
    tableAt_eq hpt, ok_bind, entryAt_eq_ok.mpr he, ok_bind]
  split_ifs with hval
  · rw [writePte_eq _ hpt he, ok_bind]
    cases hj : frameAt e.frameAddress with
    | ok j => simp
    | error err =>
      unfold frameAt at hj
      split_ifs at hj
      obtain rfl := Except.error.inj hj
      simp
  · simp

/-- The end of `checkReqs` returns. -/
theorem resolveMiss_ok (h : s.toMem.Placed Everywhere) (hx : s.toMem.Live p x)
    (hf : s.toMem.TableAt x f) (h0 : 0 ≤ v) (hv : v < x.limit) (clk : Clk) (req : Request) :
    ∃ s', s.resolveMiss clk p v req = .ok s' := by
  obtain ⟨m, hm, hsp, -⟩ := h.demand hx hf h0 hv clk req.address req.operation
  obtain ⟨y, hy, -⟩ := hsp.symm.live ⟨hsp.pcbs ▸ hx.1, hx.2⟩
  have hy' : ({ s with toMem := m } : RRState).heap p = some y := hy.2
  rw [resolveMiss, pcb_eq hx.2, ok_bind, hm, onMem, ok_bind, ok_bind]
  split_ifs
  · exact ⟨_, switchFrom_outcome clk hy'⟩
  · exact ⟨_, rfl⟩

/-- **A miss inside the table is served.** -/
theorem handleMiss_ok (h : Held (fun m => m.Placed Everywhere) s [] s.currProcess.toList)
    (hx : s.toMem.Live p x) (hf : s.toMem.TableAt x f) (h0 : 0 ≤ v) (hv : v < x.limit)
    (clk : Clk) (req : Request) : ∃ s', s.handleMiss clk p v req = .ok s' := by
  -- the memory after the write that blocks the process
  have hwrite : ∀ y : PCB, y.key = x.key → (s.toMem.withPcb p y).Placed Everywhere ∧
      (s.toMem.withPcb p y).Live p y ∧ (s.toMem.withPcb p y).TableAt y f ∧ v < y.limit :=
    fun y hk => ⟨h.mem.withPcb hx hk, hx.withPcb y,
      hf.congr rfl (key_id hk) (key_limit hk) (key_frameIndex hk), (key_limit hk).symm ▸ hv⟩
  rw [handleMiss]
  split_ifs with hp
  · obtain ⟨hplaced, hlive, htab, hlim⟩ := hwrite (s.blockedPcb clk x) rfl
    rw [blockCurrent_eq clk hx.2, ok_bind]
    exact resolveMiss_ok hplaced hlive htab h0 hlim clk req
  · have hids := h.wf.idOf_inj hx
    have hmem : ∀ q ∈ s.readyQueue, q ∈ s.currentPCBs := fun q hq =>
      h.mem_iff.mpr (Or.inr (Or.inr (Or.inl hq)))
    rw [blockReady, pcb_eq hx.2, ok_bind]
    by_cases hr : p ∈ s.readyQueue
    · obtain ⟨hplaced, hlive, htab, hlim⟩ := hwrite { x with state := .B } rfl
      have hx' : ({ s with readyQueue := s.readyQueue.erase p } : RRState).heap p = some x := hx.2
      rw [Queue.dequeueById_self (fun q hq => hids q (hmem q hq)) hr (idOf_eq hx.2), ok_bind]
      dsimp only
      rw [update_eq hx', ok_bind, ok_bind]
      exact resolveMiss_ok hplaced hlive htab h0 hlim clk req
    · refine ⟨s, ?_⟩
      rw [Queue.dequeueById_none fun q hq => ?_, ok_bind]
      · rfl
      · obtain ⟨i, hi, hne⟩ := hids q (hmem q hq)
        exact ⟨i, hi, fun he => hr (hne he ▸ hq)⟩

/-! ### The whole path -/

/-- What is said about the service of a request that is the first in the queue: no page
table is left, and a page that is not below the limit is dropped, or stays in the queue
while it is not due. -/
structure InBounds (clk : Clk) (s : RRState) (p : Ptr) (x : PCB) (req : Request)
    (rest : List Request) : Prop where
  inside : { s with requests := req :: rest }.checkReqs clk ≠ .error .outOfBounds
  dropped : x.limit ≤ (parseHexaAddress req.address).page →
    { s with requests := req :: rest }.checkReqs clk =
      .ok { s with
        requests := if req.tick ≤ clk .reqDue then rest else req :: rest
        checks := s.checks ++ [(p, req, .invalid)] }

/-- The owner of the request is found. -/
theorem checkReqs_cons (hw : s.toMem.Wf) (hx : s.toMem.Live p x) (hreq : req.mtype = x.id)
    (clk : Clk) : { s with requests := req :: rest }.checkReqs clk =
      { s with requests := req :: rest }.serveRequest clk req p := by
  have howner : ({ s with requests := req :: rest } : RRState).getProcess req.mtype =
      .ok (some p) := by
    rw [hreq]
    exact getProcess_live hw hx
  rw [checkReqs]
  simp only [Queue.isEmpty_cons, Bool.false_eq_true, if_false, Queue.peek, ok_bind, howner]

/-- **A page above the limit is dropped.** -/
theorem checkReqs_above (rest : List Request) (hw : s.toMem.Wf) (hx : s.toMem.Live p x)
    (hf : x.frameIndex = f)
    (hreq : req.mtype = x.id) (hv : x.limit < (parseHexaAddress req.address).page) (clk : Clk) :
    { s with requests := req :: rest }.checkReqs clk =
      .ok { s with
        requests := if req.tick ≤ clk .reqDue then rest else req :: rest
        checks := s.checks ++ [(p, req, .invalid)] } := by
  have hc : ({ s with requests := req :: rest } : RRState).check p
      (parseHexaAddress req.address).page req.operation = .ok (.invalid, s.toMem) :=
    check_invalid hx.2 hf hv
  rw [checkReqs_cons hw hx hreq, serveRequest, hc, ok_bind]
  dsimp only
  split_ifs
  · rw [Queue.dequeue_cons, ok_bind]
  · rfl

/-- **A page below the limit is served inside the table.** -/
theorem checkReqs_below (h : Held (fun m => m.Placed Everywhere) s [] s.currProcess.toList)
    (hx : s.toMem.Live p x) (hf : s.toMem.TableAt x f) (hreq : req.mtype = x.id)
    (hv : (parseHexaAddress req.address).page < x.limit) (clk : Clk) :
    { s with requests := req :: rest }.checkReqs clk ≠ .error .outOfBounds := by
  have h0 := (parseHexaAddress_page req.address).1
  have hne := check_ne_outOfBounds (c := req.operation) hx hf h0 hv
  rw [checkReqs_cons h.wf hx hreq, serveRequest]
  show (s.check p _ req.operation >>= _) ≠ _
  cases hc : s.check p (parseHexaAddress req.address).page req.operation with
  | error e =>
    rw [error_bind]
    exact fun he => hne (hc.trans (congrArg _ (Except.error.inj he)))
  | ok r =>
    obtain ⟨result, m⟩ := r
    rw [ok_bind]
    dsimp only
    split_ifs
    · rw [Queue.dequeue_cons, ok_bind]
      cases result with
      | hit => simp
      | invalid => simp
      | miss =>
        obtain rfl := check_miss_same hc
        let s₁ : RRState :=
          { s with requests := rest, checks := s.checks ++ [(p, req, .miss)] }
        have hheld : Held (fun m => m.Placed Everywhere) s₁ [] s.currProcess.toList :=
          h.of_eq rfl rfl rfl rfl rfl
        obtain ⟨s', hs'⟩ := handleMiss_ok hheld hx hf h0 hv clk req
        show s₁.handleMiss clk p _ req ≠ _
        rw [hs']
        simp
    · simp

/-- **At the limit the table is left.** -/
theorem checkReqs_limit (hw : s.toMem.Wf) (hx : s.toMem.Live p x) (hf : s.toMem.TableAt x f)
    (hreq : req.mtype = x.id) (hv : (parseHexaAddress req.address).page = x.limit) (clk : Clk) :
    { s with requests := req :: rest }.checkReqs clk = .error .outOfBounds := by
  have hc : ({ s with requests := req :: rest } : RRState).check p x.limit req.operation =
      .error .outOfBounds := check_limit hx hf
  rw [checkReqs_cons hw hx hreq, serveRequest, hv, hc, error_bind]

end RRState

namespace World

open Mem RRState

variable {P : Params} {w : World} {p : Ptr} {x : PCB} {req : Request}

/-- The placement of the page tables, in every state of every run. -/
theorem reachable_placed (h : (systemOn P Paged).Reachable w) :
    Inv (fun m => m.Placed Everywhere) Paged w :=
  reachable_inv_if kept_placed init_consistent.toPlaced (fun _ _ _ _ =>
    ⟨fun _ _ _ _ _ => trivial, fun _ _ _ _ _ => trivial⟩) (reachable_if_true h)

/-- **The memory of the scheduler is in a state of a run of the memory operations**, when
all limits are between 1 and 64: the scheduler does nothing else to it. -/
theorem reachable_memory (h : (systemOn P fun d => 1 ≤ d.limit ∧ d.limit ≤ 64).Reachable w) :
    Mem.system.Reachable w.rr.toMem :=
  (reachable_inv_if kept_reachable (.init rfl) (fun _ _ _ _ =>
    ⟨fun _ _ _ _ _ => trivial, fun _ _ _ _ _ => trivial⟩) (reachable_if_true h)).held.mem

/-- **A request is served inside the page tables exactly if its page is not the limit.**
In every state of every run over processes with limits from 1 on, for every process with
a page table and every request of it, whatever its address and its operation. -/
theorem checkReqs_inBounds_iff (h : (systemOn P Paged).Reachable w) (hx : w.rr.toMem.Live p x)
    (hf : x.frameIndex ≠ -1) (hreq : req.mtype = x.id) (rest : List Request) (clk : Clk) :
    InBounds clk w.rr p x req rest ↔ (parseHexaAddress req.address).page ≠ x.limit := by
  have hheld := (reachable_placed h).held
  obtain ⟨f, -, htab⟩ := hheld.mem.tableAt hx hf
  refine ⟨fun hin heq => hin.inside (checkReqs_limit hheld.wf hx htab hreq heq clk), fun hne => ?_⟩
  rcases lt_or_gt_of_ne hne with hlt | hgt
  · exact ⟨checkReqs_below hheld hx htab hreq hlt clk, fun hle => by omega⟩
  · have habove := checkReqs_above rest hheld.wf hx htab.index hreq hgt clk
    exact ⟨by rw [habove]; exact nofun, fun _ => habove⟩

/-- The system can start with one process that has two pages. -/
theorem paged_sole : (systemOn P Paged).Reachable (start [soleProcess 2] 1) := by
  exact .init ⟨_, 1, workload_sole 2, by decide, by decide, rfl⟩

/-- A request for page 1 of that process. -/
theorem checkReqs_inBounds_iff_sole :
    ∃ w x, playAll (quietParams 2) (start [soleProcess 2] 1) firstTick = some w ∧
      w.rr.heap 0 = some x ∧
      (InBounds (readings 2 2) w.rr 0 x
          { mtype := 7, tick := 0, address := "16".toList, operation := 'r' } [] ↔
        (parseHexaAddress "16".toList).page ≠ x.limit) := by
  have hrun : (playAll (quietParams 2) (start [soleProcess 2] 1) firstTick).map
      (fun w => (w.rr.currentPCBs, (w.rr.heap 0).map fun x => (x.frameIndex, x.id))) =
        some ([0], some (0, 7)) := by
    decide
  obtain ⟨w, hw, he⟩ := Option.map_eq_some_iff.mp hrun
  simp only [Prod.mk.injEq, Option.map_eq_some_iff] at he
  obtain ⟨hl, x, hx, hf, hid⟩ := he
  have hreach := playAll_reachable (paged_sole (P := quietParams 2)) hw
  exact ⟨w, x, hw, hx, checkReqs_inBounds_iff hreach ⟨hl ▸ List.mem_singleton.mpr rfl, hx⟩
    (by omega) hid.symm _ _⟩

/-- The process with two pages asks for page 2 in its first tick. -/
def pastTheEnd : Params where
  quantum := 2
  k := 0
  requestFile := fun _ => [{ mtype := 0, tick := 0, address := "32".toList, operation := 'r' }]

/-- **A process with two pages asks for page 2**: the scheduler reads the entry behind its
page table. -/
theorem not_inBounds_limit :
    ¬∀ (P : Params) (w : World) (clk : Clk), (systemOn P Paged).Reachable w →
      w.rr.phase P clk ≠ .error .outOfBounds := by
  intro hall
  have hrun : (playAll pastTheEnd (start [soleProcess 2] 1)
      (firstTick ++ [.child 0, .sched 2 2])).map
      (fun w => Fallible.failure (w.rr.phase pastTheEnd (readings 2 2))) =
        some (some .outOfBounds) := by
    decide
  obtain ⟨w, hw, he⟩ := Option.map_eq_some_iff.mp hrun
  exact hall _ w _ (playAll_reachable paged_sole hw) (Fallible.failure_eq_some.mp he)

end World

end CpuScheduler
