import CpuScheduler.Mmu.InFlight
import CpuScheduler.RR.Allocation

/-!
# The page of a blocked process

While a process is blocked, the others start, fault, hit, finish and have their `R` bits
cleared. `CpuScheduler.World.reachable_guards` says that none of this touches the page it
waits for: from the fault that sets `pending_page` and `pending_frame` until
`checkBlockEnd` takes the process out of the block queue, the frame holds the page and is
reserved, and the page table of the process points to it. No two blocked processes wait
for one frame, and no frame stays reserved for nobody.

This holds whether or not there are frames enough: a fault that finds no frame leaves -1
in both fields, and its process waits for nothing.
-/

namespace CpuScheduler

namespace RRState

open Mem

variable {P : Params} {clk : Clk} {s s' : RRState} {p : Ptr} {v : ℤ} {x : PCB}
  {F : Ptr → ℤ → ℤ → ℤ → Prop}

/-- What a demand does to the memory. -/
theorem Serves.demands (hs : Serves clk s s') (h : s.toMem.Guarded F) (hp : s.toMem.Live p x)
    (hd : Demands clk s p v) (hv : v < 64) : p ∈ s'.blockQueue ∧
      ∃ z m c, Demanded clk s.toMem m p x v c z ∧ s'.heap = m.heap ∧ s'.RAM = m.RAM := by
  obtain ⟨req, rest, -, -, -, hmiss, -⟩ := id hd
  cases hs with
  | keep hnone hm hrq => exact absurd hd (hnone p v)
  | @block m rq ck r q y u raw op hy hd' hf hm hrq =>
    obtain ⟨rfl, rfl⟩ := hd.eq hd'
    obtain rfl := Option.some.inj (hy.symm.trans hp.2)
    have hown : y.Own { y with state := y.state } := ⟨rfl, rfl, rfl, rfl, rfl, id, Or.inl, rfl⟩
    obtain ⟨z, hz⟩ := h.demanded (y := { y with state := .B }) hp hmiss hv hown hf
    exact ⟨Queue.mem_enqueue.mpr (Or.inr rfl), z, m, _, hz, rfl, rfl⟩
  | @switch m rq ck q y u raw op hcur hy hd' hf hm hrq =>
    obtain ⟨rfl, rfl⟩ := hd.eq hd'
    obtain rfl := Option.some.inj (hy.symm.trans hp.2)
    have hown : y.Own { s.blockedPcb clk y with state := y.state } :=
      ⟨rfl, rfl, rfl, rfl, rfl, id, Or.inl, rfl⟩
    obtain ⟨z, hz⟩ := h.demanded hp hmiss hv hown hf
    exact ⟨Queue.mem_enqueue.mpr (Or.inr rfl), z, m, _, hz, rfl, rfl⟩

end RRState

namespace World

open RRState Mem

variable {P : Params} {w w' : World} {e : Event} {clk : Clk} {p q : Ptr} {v f t : ℤ} {x y : PCB}
  {F : Ptr → ℤ → ℤ → ℤ → Prop}

/-! ### Demands for the first 64 pages -/

/-- The page that the next step demands, if it does, is one of the first 64. -/
def LowPages (w : World) : Event → Prop
  | .sched clk _ => w.rr.pc = .requests → w.rr.currProcess.isSome →
    ∀ p v, Demands clk (w.rr.fetched clk) p v → v < 64
  | _ => True

theorem LowPages.roomy (h : LowPages w e)
    (hF : ∀ clk p v, Demands clk (w.rr.fetched clk) p v → ∀ u f t, F p u f t) :
    ∀ clk t, e = .sched clk t → Roomy (Unfollowed F) clk w.rr := by
  rintro clk t rfl
  exact ⟨fun hpc hcur p v hd _ => ⟨h hpc hcur p v hd, hF clk p v hd⟩, fun _ _ _ _ _ => nofun⟩

/-- The processes whose pages are the first 64 at most. -/
def Small (d : ProcessData) : Prop := 1 ≤ d.limit ∧ d.limit ≤ 64

instance : DecidablePred Small := fun d =>
  inferInstanceAs (Decidable (1 ≤ d.limit ∧ d.limit ≤ 64))

theorem reachable_of_small (h : (systemOn P Small).Reachable w) : (system P).Reachable w :=
  reachable_mono (fun _ _ => trivial) h

/-- What the scheduler does to the memory is a run of the memory operations. -/
theorem reachable_mem (h : (systemOn P Small).Reachable w) :
    Inv Mem.system.Reachable Small w :=
  reachable_inv_if kept_reachable (.init rfl) (fun _ _ _ _ => ⟨fun _ _ _ _ _ => trivial,
    fun _ _ _ _ _ => trivial⟩) (reachable_if_true h)

/-- A page that is demanded is below the limit. -/
theorem lowPages_of_small (h : (systemOn P Small).Reachable w) (e : Event) : LowPages w e := by
  cases e with
  | sched clk t =>
    intro _ _ p v hd
    have hi := reachable_mem h
    have hmem := Mem.reachable_inv hi.held.mem
    obtain ⟨-, x, hx⟩ := hd.not_blocked hi.held.toCustody
    obtain ⟨rq, mq, hf⟩ := fetched_eq clk w.rr
    rw [hf] at hd
    obtain ⟨req, rest, -, -, -, hmiss, -⟩ := hd
    obtain ⟨-, -, -, -, -, -, hv⟩ := hmem.consistent.toPlaced.missed hx hmiss
    exact hv.trans_le (hmem.limits hx)
  | _ => exact trivial

/-! ### What does not change while a process is blocked -/

/-- A process that stays blocked waits for what it waited for. -/
theorem Step.waiting (hst : Step P e w w') (hi : Inv (Guarded fun _ _ _ _ => True) Paged w)
    (hlow : LowPages w e) (hB : p ∈ w.rr.blockQueue) (hB' : p ∈ w'.rr.blockQueue)
    (hx : w.rr.heap p = some x) : ∃ y, w'.rr.heap p = some y ∧ y.pendingPage = x.pendingPage ∧
      y.pendingFrame = x.pendingFrame ∧ y.unblockAt = x.unblockAt := by
  -- the process is followed with what its PCB says now
  let F : Ptr → ℤ → ℤ → ℤ → Prop := fun q v f t => q = p →
    v = x.pendingPage ∧ f = x.pendingFrame ∧ t = x.unblockAt
  have hF : Guarded F w.rr.toMem := by
    refine ⟨hi.held.mem.agree, hi.held.mem.orderly, hi.held.mem.backed, hi.held.mem.used, ?_⟩
    rintro q y hy - rfl
    obtain rfl := Option.some.inj (hy.2.symm.trans hx)
    exact ⟨rfl, rfl, rfl⟩
  have hi' : Inv (Guarded F) Paged w' := by
    refine hst.inv (kept_guarded F) ⟨⟨hi.held.toCustody, hF⟩, hi.ids, hi.new, hi.good⟩
      (hlow.roomy ?_)
    rintro clk q u hd v f t rfl
    exact absurd hB (hd.not_blocked hi.held.toCustody).1
  obtain ⟨y, hy, hstate⟩ := hi'.held.blocked p hB'
  have hlive : w'.rr.toMem.Live p y := ⟨hi'.held.mem_iff.mpr (Or.inr (Or.inr (Or.inr hB'))), hy⟩
  exact ⟨y, hy, hi'.held.mem.follow hlive hstate rfl⟩

/-- **What is reserved is waited for**, in every state of every run. -/
theorem reachable_guarded (h : (systemOn P Small).Reachable w) :
    Inv (Guarded fun _ _ _ _ => True) Paged w := by
  induction h with
  | init h =>
    obtain ⟨l, t, hl, hadm, -, rfl⟩ := h
    exact start_inv (init_guarded _) hl (fun d hd => (hadm d hd).1) t
  | step h hst ih =>
    obtain ⟨e, hst⟩ := hst
    exact hst.inv (kept_guarded _) ih ((lowPages_of_small h e).roomy fun _ _ _ _ _ _ _ => trivial)

/-! ### Pages in flight -/

/-- **The page `v` of the process `p` is in flight**, on its way to the frame `f`: a demand
fault has set the two fields of the process, and it has been in the block queue since. -/
inductive InFlight (P : Params) (p : Ptr) (v f : ℤ) : World → Prop
  | fault {w w' : World} {clk : Clk} {t : ℤ} {x : PCB} (h : (systemOn P Small).Reachable w)
      (hpc : w.rr.pc = .requests) (hcur : w.rr.currProcess.isSome)
      (hd : Demands clk (w.rr.fetched clk) p v) (hst : Step P (.sched clk t) w w')
      (hx : w'.rr.heap p = some x) (hf : x.pendingFrame = f) (hne : f ≠ -1) : InFlight P p v f w'
  | wait {w w' : World} {e : Event} (h : InFlight P p v f w) (hst : Step P e w w')
      (hB : p ∈ w'.rr.blockQueue) : InFlight P p v f w'

theorem InFlight.reachable (h : InFlight P p v f w) : (systemOn P Small).Reachable w := by
  induction h with
  | fault h _ _ _ hst _ _ _ => exact h.step ⟨_, hst⟩
  | wait _ hst _ ih => exact ih.step ⟨_, hst⟩

/-- The fields of the process stay as the fault has set them. -/
theorem InFlight.pending (h : InFlight P p v f w) : f ≠ -1 ∧ p ∈ w.rr.blockQueue ∧
    ∃ x, w.rr.heap p = some x ∧ x.pendingPage = v ∧ x.pendingFrame = f := by
  induction h with
  | @fault w w' clk t x h hpc hcur hd hst hx hf hne =>
    have hi := reachable_guarded h
    obtain ⟨-, y, hy⟩ := hd.not_blocked hi.held.toCustody
    have hlow := lowPages_of_small h (.sched clk t)
    cases hst with
    | sched _ hphase =>
      cases (reachable_inv (reachable_of_small h)).turn hphase with
      | serve _ _ hs =>
        have hv := hlow hpc hcur p v hd
        obtain ⟨rq, mq, he⟩ := fetched_eq clk w.rr
        rw [he] at hs hd
        obtain ⟨hB, z, m, c, hdem, hheap, -⟩ := hs.demands hi.held.mem hy hd hv
        obtain rfl : z = x := by
          rw [hheap, hdem.only.heap, withPcb_heap_self] at hx
          exact Option.some.inj hx
        refine ⟨hne, hB, z, hx, ?_, hf⟩
        rcases hdem.page with ⟨i, hzp, -⟩ | ⟨-, -, hzf, -⟩
        · exact hzp
        · exact absurd (hf.symm.trans hzf) hne
      | idle _ hnone =>
        rw [hnone] at hcur
        exact nomatch hcur
      | _ hpc' => exact nomatch hpc.symm.trans hpc'
  | wait h hst hB ih =>
    obtain ⟨hne, hB₀, x, hx, hxp, hxf⟩ := ih
    obtain ⟨y, hy, hyp, hyf, -⟩ := hst.waiting (reachable_guarded h.reachable)
      (lowPages_of_small h.reachable _) hB₀ hB hx
    exact ⟨hne, hB, y, hy, hyp.trans hxp, hyf.trans hxf⟩

/-- **Whatever a blocked process waits for is in flight.** -/
theorem reachable_inFlight (h : (systemOn P Small).Reachable w) : ∀ p ∈ w.rr.blockQueue, ∀ x,
    w.rr.heap p = some x → x.pendingFrame ≠ -1 → InFlight P p x.pendingPage x.pendingFrame w := by
  induction h with
  | init h =>
    obtain ⟨l, t, -, -, -, rfl⟩ := h
    exact List.forall_mem_nil _
  | @step w w' h hst ih =>
    obtain ⟨e, hst⟩ := hst
    intro p hB' x hx hne
    by_cases hB : p ∈ w.rr.blockQueue
    · -- it was blocked before, and its fields have not changed
      have hi := reachable_guarded h
      obtain ⟨y, hy, -⟩ := hi.held.blocked p hB
      obtain ⟨x', hx', hp, hf, -⟩ := hst.waiting hi (lowPages_of_small h e) hB hB' hy
      obtain rfl := Option.some.inj (hx'.symm.trans hx)
      rw [hp, hf]
      exact (ih p hB y hy (hf ▸ hne)).wait hst hB'
    · cases hst with
      | @sched _ clk s t hclk hphase =>
        obtain ⟨hpc, hcur, v, hd⟩ :=
          ((reachable_inv (reachable_of_small h)).turn hphase).blocks hB hB'
        have hfly : InFlight P p v x.pendingFrame { w with rr := s, clock := t } :=
          .fault h hpc hcur hd (.sched hclk hphase) hx rfl hne
        obtain ⟨-, -, y, hy, hyp, -⟩ := hfly.pending
        obtain rfl := Option.some.inj (hy.symm.trans hx)
        exact hyp ▸ hfly
      | child hs =>
        obtain ⟨c, -, -, -, ⟨-, rfl⟩ | ⟨-, -, rfl⟩⟩ := childStep_cases hs <;> exact absurd hB' hB
      | _ => exact absurd hB' hB

/-- **The pages in flight are kept**, in the state `w`. -/
structure Guards (P : Params) (w : World) : Prop where
  /-- The block queue is the list of the blocked processes. -/
  blocked : ∀ {p x}, w.rr.toMem.Live p x → (p ∈ w.rr.blockQueue ↔ x.state = .B)
  /-- The frame of a page in flight holds it, is reserved, and the page table of its process
  points to it. -/
  inFlight : ∀ {p v f}, InFlight P p v f w → ∃ (x : PCB) (i : Fin 32) (e : PTE),
    w.rr.toMem.Live p x ∧ x.state = .B ∧ x.pendingPage = v ∧ x.pendingFrame = f ∧ f = i ∧
      w.rr.toMem.PageAt x.id v i ∧ (w.rr.RAM i).reserved = true ∧
      w.rr.toMem.entry x v = some e ∧ e.valid = true ∧ e.frameAddress = f
  /-- Whatever a blocked process waits for is in flight. -/
  waiting : ∀ {p x}, p ∈ w.rr.blockQueue → w.rr.heap p = some x → x.pendingFrame ≠ -1 →
    InFlight P p x.pendingPage x.pendingFrame w
  /-- No two processes wait for one frame. -/
  distinct : ∀ {p q x y}, p ∈ w.rr.blockQueue → q ∈ w.rr.blockQueue → w.rr.heap p = some x →
    w.rr.heap q = some y → x.pendingFrame ≠ -1 → x.pendingFrame = y.pendingFrame → p = q
  /-- Every reserved frame is waited for. -/
  reserved : ∀ {i : Fin 32}, (w.rr.RAM i).reserved = true →
    ∃! p, p ∈ w.rr.blockQueue ∧ ∃ x, w.rr.heap p = some x ∧ x.pendingFrame = i

/-- **In every run, pages in flight are kept and no reservation leaks**, for processes with
limits from 1 to 64. -/
theorem reachable_guards (h : (systemOn P Small).Reachable w) : Guards P w := by
  have hi := reachable_guarded h
  have hc := hi.held.toCustody
  have hmem := hi.held.mem
  have hlive : ∀ {p x}, p ∈ w.rr.blockQueue → w.rr.heap p = some x → w.rr.toMem.Live p x :=
    fun hB hx => ⟨hc.mem_iff.mpr (Or.inr (Or.inr (Or.inr hB))), hx⟩
  have hblocked : ∀ {p x}, w.rr.toMem.Live p x → (p ∈ w.rr.blockQueue ↔ x.state = .B) := by
    intro p x hx
    refine ⟨fun hB => (hc.blocked p hB).eq hx.2, fun hB => ?_⟩
    rcases hc.mem_iff.mp hx.1 with hp | hp | hp | hp
    · exact nomatch hp
    · exact nomatch hB.symm.trans ((hc.running p hp).eq hx.2)
    · exact nomatch hB.symm.trans ((hc.ready p hp).eq hx.2)
    · exact hp
  have hdistinct : ∀ {p q x y}, p ∈ w.rr.blockQueue → q ∈ w.rr.blockQueue →
      w.rr.heap p = some x → w.rr.heap q = some y → x.pendingFrame ≠ -1 →
      x.pendingFrame = y.pendingFrame → p = q := by
    intro p q x y hp hq hx hy hne he
    obtain ⟨i, hi, hpage, -⟩ := hmem.backed (hlive hp hx) hne
    obtain ⟨j, hj, hpage', -⟩ := hmem.backed (hlive hq hy) (he ▸ hne)
    obtain rfl := coe_inj (hi.symm.trans (he.trans hj))
    exact hc.wf.ids (hlive hp hx) (hlive hq hy) (hpage.processId.symm.trans hpage'.processId)
  refine ⟨hblocked, fun hf => ?_, fun hp hx hne => reachable_inFlight h _ hp _ hx hne, hdistinct,
    fun {i} hres => ?_⟩
  · obtain ⟨hne, hB, x, hx, rfl, rfl⟩ := hf.pending
    have hl := hlive hB hx
    obtain ⟨i, hif, hpage, hres⟩ := hmem.backed hl hne
    obtain ⟨e, he, hval, hfa⟩ := hmem.agree.held (i := i) trivial hpage.occupied hpage.page hl
      hpage.processId
    rw [hpage.vpage] at he
    exact ⟨x, i, e, hl, (hblocked hl).mp hB, rfl, rfl, hif, hpage, hres, he, hval,
      hfa.trans hif.symm⟩
  · obtain ⟨p, x, hx, hxi⟩ := hmem.used hres
    have hB : p ∈ w.rr.blockQueue := by
      refine (hblocked hx).mpr ?_
      by_contra hne
      have := (hmem.orderly hx).idle hne
      omega
    refine ⟨p, ⟨hB, x, hx.2, hxi⟩, ?_⟩
    rintro q ⟨hq, y, hy, hyi⟩
    exact hdistinct hq hB hy hx.2 (by omega) (hyi.trans hxi.symm)

/-! ### A run with a fault -/

/-- The workload is small. -/
theorem small_threeAtOnce : (systemOn threeParams Small).Reachable (start threeAtOnce 1) :=
  .init ⟨_, 1, workload_threeAtOnce, by decide, by decide, rfl⟩

/-- The page of the blocked process is in the frame 2, while the two others take turns. -/
theorem reachable_guards_preempted : ∃ w,
    playAll threeParams (start threeAtOnce 1) preemptedRun = some w ∧
    w.rr.currProcess = some 2 ∧ w.rr.blockQueue = [0] ∧ (w.rr.RAM 2).reserved = true ∧
    Guards threeParams w := by
  have hrun : (playAll threeParams (start threeAtOnce 1) preemptedRun).map
      (fun w => (w.rr.currProcess, w.rr.blockQueue, (w.rr.RAM 2).reserved)) =
        some (some 2, [0], true) := by
    decide +kernel
  obtain ⟨w, hw, he⟩ := Option.map_eq_some_iff.mp hrun
  simp only [Prod.mk.injEq] at he
  obtain ⟨hcur, hB, hres⟩ := he
  exact ⟨w, hw, hcur, hB, hres, reachable_guards (playAll_reachable small_threeAtOnce hw)⟩

end World

end CpuScheduler
