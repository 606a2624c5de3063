import CpuScheduler.Mmu.Runs

/-!
# The two ways of a demand fault

A demand fault that finds a free frame goes through `put_page_in_frame`; one that
has to evict a page goes through `swap`. Both are meant to leave the same state
behind, up to the frame and the delay: `CpuScheduler.Mem.Resolved`.

They do for the first 64 pages. From page 64 on they part ways – the eviction maps
the page 64 below the one that was asked for, and neither way sets the time at which
the process may run again – so the outcome is the intended one only if a frame is
free and the process happens to carry a late enough `unblock_at` from before
(`CpuScheduler.Mem.faultHandler_resolved_iff`).
-/

namespace CpuScheduler

namespace Mem

variable {m m' : Mem} {p q : Ptr} {x y z : PCB} {f i j : Fin 32} {v u now : ℤ} {c : Char}
  {clk : Clk} {w : Bool} {raw : List Char}

/-- The fault of the process `p` on page `v` has been resolved with the frame `f`: the
entry and the frame describe each other, the frame is reserved and recorded as
pending, and the process is to be unblocked some delay of at least 10 after `now`. -/
structure Resolved (m' : Mem) (p : Ptr) (x : PCB) (v : ℤ) (f : Fin 32) (w : Bool) (now : ℤ) :
    Prop where
  entry : m'.entry x v = some { R := true, M := w, frameAddress := f, valid := true }
  page : m'.PageAt x.id v f
  R : (m'.RAM f).R = true
  M : (m'.RAM f).M = w
  reserved : (m'.RAM f).reserved = true
  pcb : ∃ y, m'.heap p = some y ∧ y.pendingPage = v ∧ y.pendingFrame = f ∧
    ∃ delay, 10 ≤ delay ∧ y.unblockAt = now + delay

theorem pageFaultDelay_ge (m : Mem) (f : Fin 32) : 10 ≤ m.pageFaultDelay f := by
  unfold pageFaultDelay
  split_ifs <;> omega

/-- The entry a page that goes into a frame ends up with. -/
theorem PageIn.loaded (h : PageIn m m' x v i w) :
    m'.entry x v = some { R := true, M := w, frameAddress := i, valid := true } ∧
      m'.PageAt x.id v i ∧ (m'.RAM i).R = true ∧ (m'.RAM i).M = w := by
  cases h with
  | free _ hl => exact ⟨by rw [hl.entry, if_pos ⟨rfl, rfl⟩], hl.page, hl.R, hl.M⟩
  | evict _ _ _ _ _ _ hl => exact ⟨by rw [hl.entry, if_pos ⟨rfl, rfl⟩], hl.page, hl.R, hl.M⟩

/-- A page that goes into a frame makes no other entry of its process valid. -/
theorem PageIn.entry_of_ne {e : PTE} (h : PageIn m m' x v i w) (hu : u ≠ v)
    (he : m.entry x u = some e) (hinv : e.valid = false) :
    ∃ e', m'.entry x u = some e' ∧ e'.valid = false := by
  cases h with
  | free _ hl =>
    refine ⟨e, ?_, hinv⟩
    rw [hl.entry, if_neg fun h => hu h.2, he]
  | evict _ _ _ _ _ hev hl =>
    rw [hl.entry, if_neg fun h => hu h.2, hev.entry]
    split_ifs
    · exact ⟨_, rfl, rfl⟩
    · exact ⟨e, he, hinv⟩

/-- A fault is resolved when its page is in a reserved frame and its process records
it, unless the delay is too short. -/
theorem resolved_iff (ho : FramesOnly (m.withPcb p y) m') (hin : PageIn m m' x v i w)
    (hres : (m'.RAM i).reserved = true) (hpage : y.pendingPage = v) (hframe : y.pendingFrame = i) :
    (∃ f, m'.Resolved p x v f w now) ↔ now + 10 ≤ y.unblockAt := by
  have hy : m'.heap p = some y := by rw [ho.heap, withPcb_heap_self]
  obtain ⟨hent, hpa, hR, hM⟩ := hin.loaded
  constructor
  · rintro ⟨f, hr⟩
    obtain ⟨y', hy', -, -, delay, hd, hu⟩ := hr.pcb
    obtain rfl := Option.some.inj (hy.symm.trans hy')
    omega
  · intro hu
    exact ⟨i, hent, hpa, hR, hM, hres, y, hy, hpage, hframe, y.unblockAt - now, by omega, by omega⟩

theorem unblockAt_blockedUntil (hv : v < 64) (x : PCB) (t : ℤ) :
    (blockedUntil x t v).unblockAt = t := by
  simp [blockedUntil, hv]

theorem blockedUntil_of_ge (hv : 64 ≤ v) (x : PCB) (t : ℤ) : blockedUntil x t v = x := by
  simp [blockedUntil, not_lt.mpr hv]

/-- **When a demand fault that obtains a frame is resolved as intended.** In a
consistent state, for a page of the process that is not resident and a clock that has
not gone back since `now`: exactly for the first 64 pages, and past them when a frame
is free and the process's `unblock_at` was already at least 10 ahead. -/
theorem faultHandler_resolved_iff {e : PTE} (hc : m.Consistent) (hx : m.Live p x)
    (hf : x.frameIndex ≠ -1) (hv : 0 ≤ v ∧ v < x.limit) (he : m.entry x v = some e)
    (hinv : e.valid = false)
    (hframe : ∃ j, (m.RAM j).occupied = false ∨ ((m.RAM j).pte = none ∧ (m.RAM j).reserved = false))
    (hclk : now ≤ clk .faultDelay ∧ now ≤ clk .swapDelay) :
    ∃ m', m.faultHandler clk x.id v .demand raw c = .ok m' ∧
      ((∃ f, m'.Resolved p x v f (c = 'w') now) ↔
        v < 64 ∨ ((∃ j, (m.RAM j).occupied = false) ∧ now + 10 ≤ x.unblockAt)) := by
  obtain ⟨g, -, hxg⟩ := hc.tableAt hx hf
  have hdelay := pageFaultDelay_ge m
  cases hs : scan m.RAM with
  | nothing =>
    obtain ⟨j, hj⟩ := hframe
    obtain ⟨hocc, hpr⟩ := scan_nothing.mp hs j
    rcases hj with hj | ⟨hp, hr⟩
    · exact nomatch hj.symm.trans hocc
    · rcases hpr with hp' | hr'
      · exact absurd hp hp'
      · exact nomatch hr.symm.trans hr'
  | free i =>
    obtain ⟨m', hm', ho, hin, hres⟩ := faultHandler_demand_free clk raw (c := c)
      hc.toPlaced hx hxg he hs
    refine ⟨m', hm', (resolved_iff ho hin hres rfl rfl).trans ?_⟩
    have hfree : ∃ j, (m.RAM j).occupied = false := ⟨i, scan_free hs⟩
    by_cases h64 : v < 64
    · have := hdelay i
      have hu := unblockAt_blockedUntil h64 x (clk .faultDelay + m.pageFaultDelay i)
      constructor
      · exact fun _ => Or.inl h64
      · intro _
        change now + 10 ≤ (blockedUntil x (clk .faultDelay + m.pageFaultDelay i) v).unblockAt
        omega
    · rw [blockedUntil_of_ge (not_lt.mp h64)]
      constructor
      · exact fun hu => Or.inr ⟨hfree, hu⟩
      · exact fun h => (h.resolve_left h64).2
  | victim i =>
    have hnofree : ¬∃ j, (m.RAM j).occupied = false := by
      rintro ⟨j, hj⟩
      exact nomatch hj.symm.trans ((scan_victim hs).2.2 j)
    by_cases h64 : v < 64
    · have hsw : swapPage .demand v = v := by rw [swapPage_demand, if_pos h64]
      obtain ⟨m', hm', ho, hin, hres⟩ := faultHandler_demand_victim clk raw (c := c)
        hc.toPlaced hx hxg (hsw.symm ▸ he) hs
      rw [hsw] at ho hin
      refine ⟨m', hm', (resolved_iff ho hin hres rfl rfl).trans ⟨fun _ => Or.inl h64, fun _ => ?_⟩⟩
      have := hdelay i
      have hu := unblockAt_blockedUntil h64 x (clk .swapDelay + m.pageFaultDelay i)
      change now + 10 ≤ (blockedUntil x (clk .swapDelay + m.pageFaultDelay i) v).unblockAt
      omega
    · -- the page that is loaded is another one
      have hsw : swapPage .demand v = v - 64 := by rw [swapPage_demand, if_neg h64]
      obtain ⟨e₁, he₁⟩ := hxg.entry_some (v := v - 64) (by omega) (by omega)
      obtain ⟨m', hm', ho, hin, hres⟩ := faultHandler_demand_victim clk raw (c := c)
        hc.toPlaced hx hxg (hsw.symm ▸ he₁) hs
      rw [hsw] at hin
      obtain ⟨e', he', hinv'⟩ := hin.entry_of_ne (u := v) (by omega) he hinv
      refine ⟨m', hm', fun ⟨f, hr⟩ => ?_, fun h => absurd (h.resolve_left h64).1 hnofree⟩
      obtain rfl := Option.some.inj (he'.symm.trans hr.entry)
      exact nomatch hinv'

/-! ### On a memory with one process -/

/-- The memory in which the process has been started at tick 1. -/
def soleStart (limit : ℤ) : Except Fault Mem :=
  (Mem.init.create (soleProcess limit)).initializePCB (fun _ => 1) 0

theorem soleStart_eq (limit : ℤ) (h : 1 ≤ limit) : ∃ m, soleStart limit = .ok m ∧ m.Consistent := by
  have hid : ∀ p x, Mem.init.Live p x → x.id ≠ 7 := fun p x hx => nomatch hx.1
  have hc : (Mem.init.create (soleProcess limit)).Consistent :=
    create_agree init_consistent (fun _ _ => rfl) h hid
  have hlive : (Mem.init.create (soleProcess limit)).Live 0 (createPCB (soleProcess limit)) :=
    ⟨List.mem_singleton.mpr rfl, rfl⟩
  obtain ⟨m, hm, hst⟩ := initializePCB_eq (fun _ => 1) hc.toPlaced hlive rfl
  exact ⟨m, hm, hst.agree hc hlive rfl⟩

/-- Page 1 of a process of two pages, one tick after its start. -/
theorem faultHandler_resolved_iff_sole :
    ∃ m x, soleStart 2 = .ok m ∧
      ∃ m', m.faultHandler (fun _ => 2) x.id 1 .demand "16".toList 'w' = .ok m' ∧
        ((∃ f, m'.Resolved 0 x 1 f true 2) ↔
          (1 : ℤ) < 64 ∨ ((∃ j, (m.RAM j).occupied = false) ∧ 2 + 10 ≤ x.unblockAt)) := by
  obtain ⟨m, hm, hc⟩ := soleStart_eq 2 (by decide)
  have hrun : ((soleStart 2).toOption.bind fun m => (m.heap 0).bind fun x =>
      (m.entry x 1).map fun e => (m.currentPCBs, x.frameIndex, x.limit, e.valid,
        (m.RAM 5).occupied)) = some ([0], 0, 2, false, false) := by decide
  rw [hm] at hrun
  change (m.heap 0).bind _ = _ at hrun
  obtain ⟨x, hx, hrun⟩ := Option.bind_eq_some_iff.mp hrun
  obtain ⟨e, he, hrun⟩ := Option.map_eq_some_iff.mp hrun
  simp only [Prod.mk.injEq] at hrun
  obtain ⟨hq, hf, hlim, hval, hocc⟩ := hrun
  exact ⟨m, x, hm, faultHandler_resolved_iff hc ⟨by rw [hq]; exact List.mem_singleton.mpr rfl, hx⟩
    (by rw [hf]; decide) (by rw [hlim]; decide) he hval ⟨5, Or.inl hocc⟩ (by decide)⟩

/-- **Page 64 of a process of 65 pages**, one tick after its start: a frame is free, and
the fault leaves the process with the `unblock_at` of its start, one tick too early. -/
theorem faultHandler_not_resolved_sole :
    ∃ m x e m', soleStart 65 = .ok m ∧ m.Consistent ∧ m.Live 0 x ∧ x.frameIndex ≠ -1 ∧
      x.limit = 65 ∧ m.entry x 64 = some e ∧ e.valid = false ∧ (m.RAM 2).occupied = false ∧
      m.faultHandler (fun _ => 2) 7 64 .demand "1024".toList 'r' = .ok m' ∧
      (m'.entry x 64).map PTE.valid = some true ∧ ¬∃ f, m'.Resolved 0 x 64 f false 2 := by
  obtain ⟨m, hm, hc⟩ := soleStart_eq 65 (by decide)
  have hrun : ((soleStart 65).toOption.bind fun m => (m.heap 0).bind fun x =>
      (m.entry x 64).bind fun e =>
        (m.faultHandler (fun _ => 2) 7 64 .demand "1024".toList 'r').toOption.bind fun m' =>
          (m'.heap 0).map fun y => (m.currentPCBs, x.frameIndex, x.limit, e.valid,
            (m.RAM 2).occupied, (m'.entry x 64).map PTE.valid, y.unblockAt)) =
      some ([0], 0, 65, false, false, some true, 11) := by rfl
  rw [hm] at hrun
  change (m.heap 0).bind _ = _ at hrun
  obtain ⟨x, hx, hrun⟩ := Option.bind_eq_some_iff.mp hrun
  obtain ⟨e, he, hrun⟩ := Option.bind_eq_some_iff.mp hrun
  cases hm' : m.faultHandler (fun _ => 2) 7 64 .demand "1024".toList 'r' with
  | error err =>
    rw [hm'] at hrun
    exact nomatch hrun
  | ok m' =>
    rw [hm'] at hrun
    change (m'.heap 0).map _ = _ at hrun
    obtain ⟨y, hy, hrun⟩ := Option.map_eq_some_iff.mp hrun
    simp only [Prod.mk.injEq] at hrun
    obtain ⟨hq, hf, hlim, hval, hocc, hval', hu⟩ := hrun
    refine ⟨m, x, e, m', hm, hc, ⟨by rw [hq]; exact List.mem_singleton.mpr rfl, hx⟩,
      by rw [hf]; decide, hlim, he, hval, hocc, hm', hval', ?_⟩
    rintro ⟨f, hr⟩
    obtain ⟨y', hy', -, -, delay, hd, hu'⟩ := hr.pcb
    obtain rfl := Option.some.inj (hy.symm.trans hy')
    omega

end Mem

end CpuScheduler
