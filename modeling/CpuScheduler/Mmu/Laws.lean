import CpuScheduler.Mmu.Ops

/-!
# Two predicates that the scheduler keeps

The placement of the page tables (`CpuScheduler.Mem.kept_placed`), for any limits from
1 on, and being a state of a run of the memory operations
(`CpuScheduler.Mem.kept_reachable`), for limits from 1 to 64. The second says that
what the scheduler does to the memory is a run of the system of
`CpuScheduler.Mmu.Runs`: an access is made only by a process that holds a page table
and only below its limit, since `check` does not return otherwise.
-/

namespace CpuScheduler

namespace Mem

open Fallible

variable {m m' : Mem} {p : Ptr} {x y : PCB} {f i : Fin 32} {v : ℤ} {c : Char} {clk : Clk}
  {r : CheckResult} {raw : List Char}

/-- There is always room. -/
def AnyRoom : Room := fun _ _ _ _ => True

/-! ### What a call that returns says -/

/-- **`check` returns only for a process with a page table, and only for a page inside it
or above the limit.** -/
theorem check_ok (hx : m.heap p = some x) (h : m.check p v c = .ok (r, m')) :
    ∃ f : Fin 32, x.frameIndex = f ∧ ((r = .invalid ∧ m' = m ∧ x.limit < v) ∨
      ∃ pt e, (m.RAM f).pte = some pt ∧ entryOf pt v = some e ∧
        ((r = .hit ∧ e.valid = true ∧ ∃ j : Fin 32, e.frameAddress = j ∧
          m' = m.touched f pt v e j (c = 'w')) ∨ (r = .miss ∧ e.valid = false ∧ m' = m))) := by
  rw [check, pcb_eq hx, ok_bind] at h
  obtain ⟨f, hf, h⟩ := bind_eq_ok.mp h
  refine ⟨f, frameAt_eq_ok.mp hf, ?_⟩
  rcases ite_eq_ok h with ⟨hv, h⟩ | ⟨-, h⟩
  · obtain ⟨rfl, rfl⟩ := Prod.mk.inj (Except.ok.inj h)
    exact Or.inl ⟨rfl, rfl, hv⟩
  · obtain ⟨pt, hpt, h⟩ := bind_eq_ok.mp h
    obtain ⟨e, he, h⟩ := bind_eq_ok.mp h
    refine Or.inr ⟨pt, e, tableAt_eq_ok.mp hpt, entryAt_eq_ok.mp he, ?_⟩
    rcases ite_eq_ok h with ⟨hval, h⟩ | ⟨hval, h⟩
    · obtain ⟨m₁, hm₁, h⟩ := bind_eq_ok.mp h
      obtain ⟨j, hj, h⟩ := bind_eq_ok.mp h
      rw [frameAt_eq_ok.mp hf, writePte_eq _ (tableAt_eq_ok.mp hpt) (entryAt_eq_ok.mp he)] at hm₁
      obtain rfl := Except.ok.inj hm₁
      obtain ⟨rfl, rfl⟩ := Prod.mk.inj (Except.ok.inj h)
      exact Or.inl ⟨rfl, hval, j, frameAt_eq_ok.mp hj, rfl⟩
    · obtain ⟨rfl, rfl⟩ := Prod.mk.inj (Except.ok.inj h)
      exact Or.inr ⟨rfl, Bool.eq_false_iff.mpr hval, rfl⟩

/-- The release of a process returns only if it holds a page table. -/
theorem release_ok (hw : m.Wf) (hx : m.Live p x) (h : m.release p = .ok m') :
    ∃ f : Fin 32, x.frameIndex = f := by
  have htake := Queue.dequeueById_self (hw.idOf_inj hx) hx.1 (idOf_eq hx.2)
  rw [release, pcb_eq hx.2, ok_bind, htake, ok_bind] at h
  obtain ⟨m₁, hm₁, -⟩ := bind_eq_ok.mp h
  obtain ⟨f, hf, -⟩ := bind_eq_ok.mp hm₁
  exact ⟨f, frameAt_eq_ok.mp hf⟩

/-- The page table of a process whose `frame_index` is a frame. -/
theorem Placed.table_at (h : m.Placed Everywhere) (hx : m.Live p x) (hf : x.frameIndex = f) :
    m.TableAt x f := by
  obtain ⟨g, -, hg⟩ := h.tableAt hx (by omega)
  exact coe_inj (hg.index.symm.trans hf) ▸ hg

theorem TableAt.bounds {pt : List PTE} {e : PTE} (hf : m.TableAt x f)
    (hpt : (m.RAM f).pte = some pt) (he : entryOf pt v = some e) : 0 ≤ v ∧ v < x.limit := by
  obtain ⟨pt', hpt', hlen⟩ := hf.table
  obtain rfl := Option.some.inj (hpt.symm.trans hpt')
  have := entryOf_isSome.mp ⟨e, he⟩
  omega

/-- A miss is for a page of the table that is not resident. -/
theorem Placed.missed (h : m.Placed Everywhere) (hx : m.Live p x)
    (hc : m.check p v c = .ok (.miss, m')) :
    ∃ f e, m.TableAt x f ∧ m.entry x v = some e ∧ e.valid = false ∧ 0 ≤ v ∧ v < x.limit := by
  obtain ⟨f, hf, ⟨hr, -⟩ | ⟨pt, e, hpt, he, ⟨hr, -⟩ | ⟨-, hval, -⟩⟩⟩ := check_ok hx.2 hc
  · exact nomatch hr
  · exact nomatch hr
  · have htab := h.table_at hx hf
    exact ⟨f, e, htab, by rw [entry_eq hf hpt, he], hval, htab.bounds hpt he⟩

/-! ### The placement -/

theorem Placed.withPcb (h : m.Placed Everywhere) (hx : m.Live p x) (hk : y.key = x.key) :
    (m.withPcb p y).Placed Everywhere :=
  h.congr (sameProcs_withPcb hx.2 hk) (fun _ _ => rfl) fun _ hp => h.wf.cur hp

/-- **A demand fault for a page of the table returns**, and keeps the placement. -/
theorem Placed.demand (h : m.Placed Everywhere) (hx : m.Live p x) (hf : m.TableAt x f)
    (h0 : 0 ≤ v) (hv : v < x.limit) (clk : Clk) (raw : List Char) (c : Char) :
    ∃ m', m.faultHandler clk x.id v .demand raw c = .ok m' ∧ SameProcs m m' ∧
      m'.Placed Everywhere := by
  have hin : ∀ {m' : Mem} {w : PCB} {u : ℤ} {i : Fin 32}, w.key = x.key →
      FramesOnly (m.withPcb p w) m' → 0 ≤ u → u < x.limit → PageIn m m' x u i (c = 'w') →
      SameProcs m m' ∧ m'.Placed Everywhere := by
    intro m' w u i hw ho hu hu' hp
    have hsp := (sameProcs_withPcb hx.2 hw).trans ho.sameProcs
    exact ⟨hsp, hp.placed h hsp (hsp.cur ho.cur h.wf) hx hf.ne_neg_one hu hu'⟩
  have hkey : ∀ t u j, ({ blockedUntil x t v with pendingPage := u, pendingFrame := j } : PCB).key =
      x.key := fun t u j => blockedUntil_key x t v
  cases hs : scan m.RAM with
  | free i =>
    obtain ⟨e, he⟩ := hf.entry_some h0 hv
    obtain ⟨m', hm', ho, hp, -⟩ := faultHandler_demand_free clk raw (c := c) h hx
      hf he hs
    exact ⟨m', hm', hin (hkey _ _ _) ho h0 hv hp⟩
  | victim i =>
    have hsw : 0 ≤ swapPage .demand v ∧ swapPage .demand v < x.limit := by
      rw [swapPage_demand]
      split_ifs <;> omega
    obtain ⟨e, he⟩ := hf.entry_some hsw.1 hsw.2
    obtain ⟨m', hm', ho, hp, -⟩ := faultHandler_demand_victim clk raw (c := c) h
      hx hf he hs
    exact ⟨m', hm', hin (hkey _ _ _) ho hsw.1 hsw.2 hp⟩
  | nothing =>
    refine ⟨_, faultHandler_demand_nothing clk raw h.wf hx hs, sameProcs_scanned clk hx v raw, ?_⟩
    have hsp := sameProcs_scanned clk hx v raw
    exact h.congr hsp (fun _ _ => rfl) (hsp.cur rfl h.wf)

/-- A release returns only where it keeps the placement. -/
theorem Placed.released (h : m.Placed Everywhere) (hx : m.Live p x) (hr : m.release p = .ok m') :
    Finished m m' p x ∧ m'.brk = m.brk := by
  obtain ⟨f, hf⟩ := release_ok h.wf hx hr
  obtain ⟨m₁, hm₁, hfin, -, hb⟩ := release_eq h.wf hx (h.table_at hx hf)
  obtain rfl := Except.ok.inj (hr.symm.trans hm₁)
  exact ⟨hfin, hb⟩

/-- **The placement is kept**, for processes with a limit of at least 1. -/
theorem kept_placed :
    Kept (fun m => m.Placed Everywhere) AnyRoom Paged where
  write h hx hw := h.withPcb hx hw.key
  choose h hcur := h.congr (.of_eq rfl rfl) (fun _ _ => rfl) hcur
  access h hx hc := by
    obtain ⟨f, hf, ⟨-, rfl, -⟩ | ⟨pt, e, hpt, he, ⟨-, -, j, -, rfl⟩ | ⟨-, -, rfl⟩⟩⟩ :=
      check_ok hx.2 hc
    · exact h
    · exact touched_placed h hpt
    · exact h
  block := by
    intro m m' p x y clk v raw c h hx _ hmiss _ _ hown hf
    obtain ⟨f, e, htab, -, -, h0, hv⟩ := h.missed hx hmiss
    have hk : y.key = x.key := hown.key
    have htab' : (m.withPcb p y).TableAt y f :=
      htab.congr rfl (key_id hk) (key_limit hk) (key_frameIndex hk)
    obtain ⟨m₁, hm₁, -, hplaced⟩ := (h.withPcb hx hk).demand (hx.withPcb y) htab' h0
      ((key_limit hk).symm ▸ hv) clk raw c
    rw [key_id hk] at hm₁
    exact Except.ok.inj (hf.symm.trans hm₁) ▸ hplaced
  unblock := by
    intro m m' p x t h hx _ hf
    generalize MemLine.loaded t (x.base + x.pendingPage) x.id x.pendingFrame = l at hf
    obtain ⟨i, -, rfl⟩ := freeReserved_eq_ok hf
    have hm : ((m.logLine l).setFrame i fun fr => { fr with reserved := false }).Placed
        Everywhere :=
      h.congr (.of_eq rfl rfl) (fun f _ => unreserve_shape (m.logLine l) i f)
        fun _ hp => h.wf.cur hp
    exact hm.withPcb (x := x) ⟨hx.1, hx.2⟩ rfl
  clear h hc := by
    rw [clearRecent_eq h] at hc
    exact Except.ok.inj hc ▸ clearRecent_placed h
  launch := by
    intro m m' p x y clk i h hx _ _ _ hi hy
    have hplaced : m'.Placed Everywhere ∧ p ∈ m'.currentPCBs := by
      have hk := (initializePCB_keeps clk m p).of_ok hi
      refine ⟨?_, hk.pcbs ▸ hx.1⟩
      by_cases hn : x.frameIndex = -1
      · obtain ⟨m₁, hm₁, hst⟩ := initializePCB_eq clk h hx hn
        exact Except.ok.inj (hi.symm.trans hm₁) ▸ hst.placed h hx hn
      · rw [initializePCB, pcb_eq hx.2, ok_bind, if_neg hn] at hi
        exact Except.ok.inj hi ▸ h
    exact hplaced.1.withPcb ⟨hplaced.2, hy⟩ rfl
  create h hfresh hid hadm := h.create hfresh hadm hid
  finish h hx hr := h.finish hx (h.released hx hr).1

/-! ### The runs of the memory operations -/

/-- **What the scheduler does to the memory is a run of the memory operations**, for
processes with limits from 1 to 64. -/
theorem kept_reachable :
    Kept system.Reachable AnyRoom fun d => 1 ≤ d.limit ∧ d.limit ≤ 64 := by
  have hcur : ∀ {m : Mem}, system.Reachable m → ∀ p, m.currProcess = some p →
      p ∈ m.currentPCBs := fun h _ hp => (reachable_inv h).consistent.wf.cur hp
  have hwrite : ∀ {m : Mem} {p : Ptr} {x y : PCB}, system.Reachable m → m.heap p = some x →
      y.key = x.key → system.Reachable (m.withPcb p y) := fun h hx hk =>
    h.step (.reschedule ⟨sameProcs_withPcb hx hk, rfl, rfl, fun q hq => hcur h q hq⟩)
  refine ⟨fun h hx hw => hwrite h hx.2 hw.key, fun h hc =>
    h.step (.reschedule ⟨.of_eq rfl rfl, rfl, rfl, hc⟩), ?_, ?_, ?_, fun h hc => h.step (.clear hc),
    ?_, fun h _ hid hadm => h.step (.receive hid hadm), ?_⟩
  · intro m m' p x v c r h hx hc
    obtain ⟨f, hf, ⟨-, rfl, -⟩ | ⟨pt, e, hpt, he, ⟨rfl, -⟩ | ⟨-, -, rfl⟩⟩⟩ := check_ok hx.2 hc
    · exact h
    · have htab := (reachable_inv h).consistent.toPlaced.table_at hx hf
      exact h.step (.hit hx htab.ne_neg_one (htab.bounds hpt he) hc)
    · exact h
  · intro m m' p x y clk v raw c h hx _ hmiss _ _ hown hfault
    obtain ⟨f, e, htab, -, -, hv⟩ := (reachable_inv h).consistent.toPlaced.missed hx hmiss
    have hres : Reschedule m (m.withPcb p y) :=
      ⟨sameProcs_withPcb hx.2 hown.key, rfl, rfl, fun q hq => hcur h q hq⟩
    exact h.step (.fault hx htab.ne_neg_one hv hmiss hres hfault)
  · intro m m' p x t h hx _ hf
    generalize MemLine.loaded t (x.base + x.pendingPage) x.id x.pendingFrame = l at hf
    have hlog : system.Reachable (m.logLine l) :=
      h.step (.reschedule ⟨.of_eq rfl rfl, rfl, rfl, fun q hq => hcur h q hq⟩)
    have hx' : m'.heap p = some x := by
      obtain ⟨i, -, rfl⟩ := freeReserved_eq_ok hf
      exact hx.2
    exact hwrite (hlog.step (.unreserve hf)) hx' rfl
  · intro m m' p x y clk i h hx _ _ _ hi hy
    exact hwrite (h.step (.start hx hi)) hy rfl
  · intro m m' p x h hx hr
    obtain ⟨f, hf⟩ := release_ok (reachable_inv h).consistent.wf hx hr
    exact h.step (.finish hx (by omega) hr)

end Mem

end CpuScheduler
