import CpuScheduler.Lib.Runs
import CpuScheduler.Mmu.Consistency

/-!
# Runs of the memory operations

The MMU as a transition system of its own: the scheduler starts processes, resolves
requests, releases reservations, clears `R` bits and lets processes finish, in any
order and with any clock readings. What the scheduler does between two of these
calls – moving processes between its queues, changing their states and times, choosing
the one that runs – is the step `CpuScheduler.Mem.Reschedule`.

The main result is `CpuScheduler.Mem.reachable_consistent`: whatever the run, the
frame table and the page tables describe the same bijection.
-/

namespace CpuScheduler

namespace Mem

open Fallible

variable {m m' : Mem} {p q : Ptr} {x y z : PCB} {f i j : Fin 32} {v u : ℤ} {c : Char} {clk : Clk}

/-- The scheduler has worked on its own data: the frames are as they were, and so are
the live processes with their ids, limits and page tables. -/
structure Reschedule (m m' : Mem) : Prop where
  procs : SameProcs m m'
  RAM : m'.RAM = m.RAM
  brk : m'.brk = m.brk
  cur : ∀ p, m'.currProcess = some p → p ∈ m'.currentPCBs

/-- **The memory operations of the scheduler**, over processes with distinct ids and
`1 ≤ limit ≤ 64`, whose requests are for pages below their limit and are made only
once they hold a page table. -/
inductive Step : Mem → Mem → Prop
  | receive {m : Mem} {d : ProcessData} (hid : ∀ p x, m.Live p x → x.id ≠ d.id)
      (hlim : 1 ≤ d.limit ∧ d.limit ≤ 64) : Step m (m.create d)
  | reschedule {m m' : Mem} (h : Reschedule m m') : Step m m'
  | start {m m' : Mem} {clk : Clk} {p : Ptr} {x : PCB} (hx : m.Live p x)
      (h : m.initializePCB clk p = .ok m') : Step m m'
  | hit {m m' : Mem} {p : Ptr} {x : PCB} {v : ℤ} {c : Char} (hx : m.Live p x)
      (hf : x.frameIndex ≠ -1) (hv : 0 ≤ v ∧ v < x.limit) (h : m.check p v c = .ok (.hit, m')) :
      Step m m'
  | fault {m m₁ m' : Mem} {clk : Clk} {p : Ptr} {x : PCB} {v : ℤ} {raw : List Char} {c : Char}
      (hx : m.Live p x) (hf : x.frameIndex ≠ -1) (hv : 0 ≤ v ∧ v < x.limit)
      (hmiss : m.check p v c = .ok (.miss, m)) (hm₁ : Reschedule m m₁)
      (h : m₁.faultHandler clk x.id v .demand raw c = .ok m') : Step m m'
  | unreserve {m m' : Mem} {i : ℤ} (h : m.freeReserved i = .ok m') : Step m m'
  | clear {m m' : Mem} (h : m.clearRecent = .ok m') : Step m m'
  | finish {m m' : Mem} {p : Ptr} {x : PCB} (hx : m.Live p x) (hf : x.frameIndex ≠ -1)
      (h : m.release p = .ok m') : Step m m'

/-- The memory of the RR scheduler, from its start. -/
def system : TransitionSystem Mem where
  init m := m = Mem.init
  step := Step

/-- What is carried along a run: besides the consistency, that limits stay within the
64 pages for which `fault_handler` evicts a page for the page that was asked for. -/
structure Inv (m : Mem) : Prop where
  consistent : m.Consistent
  fresh : m.Fresh
  limits : ∀ {p x}, m.Live p x → x.limit ≤ 64

theorem init_wf : Mem.init.Wf where
  nodup := List.nodup_nil
  alloc h := nomatch h
  cur h := nomatch h
  ids h := nomatch h.1

theorem init_consistent : Mem.init.Consistent where
  wf := init_wf
  limits h := nomatch h.1
  table h := nomatch h.1
  owner _ h := nomatch h
  inside _ h := nomatch h
  free _ _ := rfl
  valid h := nomatch h.1
  held _ h := nomatch h
  clean _ _ := ⟨rfl, rfl, rfl⟩

theorem init_inv : Inv Mem.init where
  consistent := init_consistent
  fresh _ _ := rfl
  limits h := nomatch h.1

/-! ### What is carried along with the consistency -/

theorem Fresh.congr (h : m.Fresh) (hp : SameProcs m m') (hb : m'.brk = m.brk) : m'.Fresh := by
  intro q hq
  have hk := hp.keys q
  rw [h q (hb ▸ hq), Option.map_none] at hk
  exact Option.map_eq_none_iff.mp hk

theorem Fresh.withPcb (h : m.Fresh) (hx : m.heap p = some x) (y : PCB) :
    (m.withPcb p y).Fresh := by
  intro q hq
  have hqp : q ≠ p := by
    rintro rfl
    exact nomatch (h q hq).symm.trans hx
  rw [withPcb_heap_of_ne hqp, h q hq]

theorem FramesOnly.fresh (ho : FramesOnly m m') (h : m.Fresh) : m'.Fresh :=
  h.congr ho.sameProcs ho.brk

theorem Started.fresh (hst : Started m m' p x) (h : m.Fresh) (hx : m.Live p x) : m'.Fresh := by
  cases hst with
  | full _ he => exact he ▸ h
  | tableOnly i _ ho _ => exact ho.fresh (h.withPcb hx.2 _)
  | both i j y _ _ _ _ ho' _ => exact ho'.fresh (h.withPcb hx.2 _)

/-- Limits are never changed. -/
theorem Started.limit (hst : Started m m' p x) (hx : m.Live p x) (hy : m'.Live q y) :
    ∃ z, m.Live q z ∧ z.limit = y.limit := by
  have hupdate : ∀ w : PCB, w.limit = x.limit → FramesOnly (m.withPcb p w) m' →
      ∃ z, m.Live q z ∧ z.limit = y.limit := by
    intro w hw ho
    have hy' := ho.live.mp hy
    by_cases hq : q = p
    · subst hq
      obtain rfl := hy'.unique (hx.withPcb w)
      exact ⟨x, hx, hw.symm⟩
    · exact ⟨y, ⟨hy'.1, (withPcb_heap_of_ne hq w).symm.trans hy'.2⟩, rfl⟩
  cases hst with
  | full _ he => exact ⟨y, he ▸ hy, rfl⟩
  | tableOnly i _ ho _ => exact hupdate { x with frameIndex := i } rfl ho
  | both i j w _ _ hw _ ho' _ =>
    refine hupdate w ?_ ho'
    rcases hw with rfl | ⟨t, rfl⟩ <;> rfl

theorem Inv.of_sameProcs (h : Inv m) (hc : m'.Consistent) (hp : SameProcs m m')
    (hb : m'.brk = m.brk) : Inv m' where
  consistent := hc
  fresh := h.fresh.congr hp hb
  limits hx := by
    obtain ⟨y, hy, -, hlim, -⟩ := hp.live hx
    exact hlim ▸ h.limits hy

theorem Reschedule.inv (hr : Reschedule m m') (h : Inv m) : Inv m' :=
  h.of_sameProcs (h.consistent.of_sameProcs hr.procs hr.RAM hr.cur) hr.procs hr.brk

/-! ### One step -/

/-- An access that hits. -/
theorem hit_inv (h : Inv m) (hx : m.Live p x) (hf : x.frameIndex ≠ -1)
    (hv : 0 ≤ v ∧ v < x.limit) (hc : m.check p v c = .ok (.hit, m')) :
    ∃ (f j : Fin 32) (pt : List PTE) (e : PTE), m.TableAt x f ∧ (m.RAM f).pte = some pt ∧
      entryOf pt v = some e ∧ e.valid = true ∧ e.frameAddress = j ∧
      m' = m.touched f pt v e j (c = 'w') := by
  obtain ⟨f, -, hxf⟩ := h.consistent.tableAt hx hf
  obtain ⟨pt, e, hpt, he⟩ := hxf.entryOf_some hv.1 hv.2
  have hent : m.entry x v = some e := by rw [entry_eq hxf.index hpt, he]
  cases hval : e.valid with
  | false =>
    rw [check_miss hx hxf hv.2 hent hval] at hc
    exact nomatch hc
  | true =>
    obtain ⟨j, -, hj, -⟩ := h.consistent.valid hx hent hval
    rw [check_hit hx hxf hv.2 hpt he hval hj] at hc
    exact ⟨f, j, pt, e, hxf, hpt, he, hval, hj, ((Prod.mk.inj (Except.ok.inj hc)).2).symm⟩

/-- An access that misses is for a page whose entry is not valid. -/
theorem miss_entry (h : Inv m) (hx : m.Live p x) (hf : x.frameIndex ≠ -1)
    (hv : 0 ≤ v ∧ v < x.limit) (hc : m.check p v c = .ok (.miss, m')) :
    ∃ e, m.entry x v = some e ∧ e.valid = false := by
  obtain ⟨f, -, hxf⟩ := h.consistent.tableAt hx hf
  obtain ⟨pt, e, hpt, he⟩ := hxf.entryOf_some hv.1 hv.2
  have hent : m.entry x v = some e := by rw [entry_eq hxf.index hpt, he]
  refine ⟨e, hent, Bool.eq_false_iff.mpr fun hval => ?_⟩
  obtain ⟨j, -, hj, -⟩ := h.consistent.valid hx hent hval
  rw [check_hit hx hxf hv.2 hpt he hval hj] at hc
  exact nomatch hc

/-- **A demand fault keeps the MMU consistent**, when the page is one of the first 64. -/
theorem fault_inv {raw : List Char} {e : PTE} (h : Inv m) (hx : m.Live p x) (hv : v < x.limit)
    (he : m.entry x v = some e) (hinv : e.valid = false)
    (hfault : m.faultHandler clk x.id v .demand raw c = .ok m') : Inv m' := by
  obtain ⟨f, -, hxf, h0, -⟩ := h.consistent.entry_bounds hx he
  have hsmall : swapPage .demand v = v := by
    rw [swapPage_demand, if_pos (lt_of_lt_of_le hv (h.limits hx))]
  have hkey : ∀ t u, ({ blockedUntil x t v with pendingPage := v, pendingFrame := u } : PCB).key =
      x.key := fun t u => blockedUntil_key x t v
  have hdone : ∀ (w : PCB) (i : Fin 32), w.key = x.key → FramesOnly (m.withPcb p w) m' →
      PageIn m m' x v i (c = 'w') → Inv m' := by
    intro w i hw ho hin
    have hsp := (sameProcs_withPcb hx.2 hw).trans ho.sameProcs
    have hcur := hsp.cur ho.cur h.consistent.wf
    exact h.of_sameProcs (hin.agree h.consistent hsp hcur hx he hinv) hsp ho.brk
  cases hs : scan m.RAM with
  | free i =>
    obtain ⟨m₁, hm₁, ho, hin, -⟩ := faultHandler_demand_free clk raw (c := c)
      h.consistent.toPlaced hx hxf he hs
    obtain rfl := Except.ok.inj (hfault.symm.trans hm₁)
    exact hdone _ i (hkey _ _) ho hin
  | victim i =>
    obtain ⟨m₁, hm₁, ho, hin, -⟩ := faultHandler_demand_victim clk raw (c := c)
      h.consistent.toPlaced hx hxf (hsmall.symm ▸ he) hs
    obtain rfl := Except.ok.inj (hfault.symm.trans hm₁)
    rw [hsmall] at ho hin
    exact hdone _ i (hkey _ _) ho hin
  | nothing =>
    have hm₁ := faultHandler_demand_nothing clk raw (c := c) (v := v)
      h.consistent.wf hx hs
    obtain rfl := Except.ok.inj (hfault.symm.trans hm₁)
    have hsp := sameProcs_scanned clk hx v raw
    exact h.of_sameProcs (h.consistent.of_sameProcs hsp rfl (hsp.cur rfl h.consistent.wf)) hsp rfl

/-- **Every memory operation keeps the invariant.** -/
theorem Step.inv (hst : Step m m') (h : Inv m) : Inv m' := by
  cases hst with
  | receive hid hlim =>
    refine ⟨create_agree h.consistent h.fresh hlim.1 hid, h.fresh.create _, fun hx => ?_⟩
    rcases (live_create h.fresh h.consistent.wf).mp hx with hx | ⟨-, rfl⟩
    · exact h.limits hx
    · exact hlim.2
  | reschedule hr => exact hr.inv h
  | @start _ clk p x hx hstart =>
    by_cases hn : x.frameIndex = -1
    · obtain ⟨m₁, hm₁, hst⟩ := initializePCB_eq clk h.consistent.toPlaced hx hn
      obtain rfl := Except.ok.inj (hstart.symm.trans hm₁)
      refine ⟨hst.agree h.consistent hx hn, hst.fresh h.fresh hx, fun hy => ?_⟩
      obtain ⟨z, hz, hlim⟩ := hst.limit hx hy
      exact hlim ▸ h.limits hz
    · rw [initializePCB, pcb_eq hx.2, ok_bind, if_neg hn] at hstart
      exact Except.ok.inj hstart ▸ h
  | hit hx hf hv hc =>
    obtain ⟨f, j, pt, e, hxf, hpt, he, hval, hj, rfl⟩ := hit_inv h hx hf hv hc
    exact h.of_sameProcs (touched_agree h.consistent hx hxf hpt he hval hj) (.of_eq rfl rfl) rfl
  | @fault m₁ _ clk p x v raw c hx hf hv hmiss hm₁ hfault =>
    obtain ⟨e, he, hinv⟩ := miss_entry h hx hf hv hmiss
    obtain ⟨y, hy, hid, hlim, hidx⟩ := hm₁.procs.symm.live hx
    rw [← hid] at hfault
    refine fault_inv (hm₁.inv h) hy (hlim.symm ▸ hv.2) ?_ hinv hfault
    rw [← he, entry_eq_of_index hidx]
    exact entry_congr (fun _ _ => by rw [hm₁.RAM]) v
  | unreserve hi =>
    obtain ⟨i, -, rfl⟩ := freeReserved_eq_ok hi
    exact h.of_sameProcs (unreserve_agree h.consistent i) (.of_eq rfl rfl) rfl
  | clear hc =>
    obtain rfl := Except.ok.inj (hc.symm.trans (clearRecent_eq h.consistent.toPlaced))
    exact h.of_sameProcs (clearRecent_agree h.consistent) (.of_eq rfl rfl) rfl
  | @finish _ p x hx hf hrel =>
    obtain ⟨f, -, hxf⟩ := h.consistent.tableAt hx hf
    obtain ⟨m₁, hm₁, hfin, -, hb⟩ := release_eq h.consistent.wf hx hxf
    obtain rfl := Except.ok.inj (hrel.symm.trans hm₁)
    refine ⟨hfin.agree h.consistent hx, fun q hq => ?_, fun hy => h.limits (hfin.live.mp hy).1⟩
    rw [hfin.heap]
    by_cases hqp : q = p
    · rw [hqp, Function.update_self]
    · rw [Function.update_of_ne hqp, h.fresh q (hb ▸ hq)]

/-- **Every state of every run satisfies the invariant.** -/
theorem reachable_inv (h : system.Reachable m) : Inv m := by
  refine h.invariant (P := Inv) (fun m hm => ?_) fun m m' hi hst => Step.inv hst hi
  obtain rfl : m = Mem.init := hm
  exact init_inv

/-! ### What the invariant says -/

/-- The frame table and the page tables, read as one mapping. -/
structure Mapping (m : Mem) : Prop where
  /-- A live process that holds a page table holds it in one of the 32 frames. -/
  table : ∀ {p x}, m.Live p x → x.frameIndex ≠ -1 → ∃ f : Fin 32, m.TableAt x f
  /-- A frame with a page table belongs to exactly one live process. -/
  owner : ∀ {f}, (m.RAM f).pte ≠ none → ∃! p, ∃ x, m.Live p x ∧ m.TableAt x f
  /-- The frame address of a valid entry is a frame. -/
  address : ∀ {p x v e}, m.Live p x → m.entry x v = some e → e.valid = true →
    ∃ i : Fin 32, e.frameAddress = i
  /-- An entry is valid and names a frame exactly when the frame holds the page. -/
  page : ∀ {p x}, m.Live p x → x.frameIndex ≠ -1 → ∀ (v : ℤ) (i : Fin 32),
    (∃ e, m.entry x v = some e ∧ e.valid = true ∧ e.frameAddress = i) ↔ m.PageAt x.id v i
  /-- The bits of a valid entry are those of its frame. -/
  bits : ∀ {p x v e} {i : Fin 32}, m.Live p x → m.entry x v = some e → e.valid = true →
    e.frameAddress = i → (m.RAM i).R = e.R ∧ (m.RAM i).M = e.M
  /-- A frame that is not occupied is clean. -/
  clean : ∀ {f}, (m.RAM f).occupied = false → (m.RAM f).pte = none ∧ (m.RAM f).R = false ∧
    (m.RAM f).M = false ∧ (m.RAM f).reserved = false
  /-- No frame holds two pages. -/
  one_page : ∀ {p q x y v u} {e e' : PTE}, m.Live p x → m.Live q y → m.entry x v = some e →
    m.entry y u = some e' → e.valid = true → e'.valid = true →
    e.frameAddress = e'.frameAddress → p = q ∧ v = u
  /-- No page is in two frames. -/
  one_frame : ∀ {p x v} {i j : Fin 32}, m.Live p x → m.PageAt x.id v i → m.PageAt x.id v j → i = j
  /-- A hit by one process does not touch the entries of another. -/
  hit : ∀ {p q x y v c m'}, m.Live p x → x.frameIndex ≠ -1 → 0 ≤ v ∧ v < x.limit →
    m.check p v c = .ok (.hit, m') → m.Live q y → q ≠ p → ∀ u, m'.entry y u = m.entry y u

/-- The process that a frame says its page is of. -/
theorem Inv.held (h : Inv m) (hx : m.Live p x) (hi : m.PageAt x.id v i) :
    ∃ e, m.entry x v = some e ∧ e.valid = true ∧ e.frameAddress = i := by
  have := h.consistent.held (i := i) trivial hi.occupied hi.page hx hi.processId
  rwa [hi.vpage] at this

/-- **In every run of the memory operations, the frame table and the page tables are
two copies of one mapping.** -/
theorem reachable_mapping (h : system.Reachable m) : m.Mapping := by
  have hi := reachable_inv h
  have hc := hi.consistent
  have hpage : ∀ {p x v e} {i : Fin 32}, m.Live p x → m.entry x v = some e → e.valid = true →
      e.frameAddress = i → m.PageAt x.id v i ∧ (m.RAM i).R = e.R ∧ (m.RAM i).M = e.M := by
    intro p x v e i hx he hval hfa
    obtain ⟨j, -, hj, hpage, hbits⟩ := hc.valid hx he hval
    obtain rfl := coe_inj (hfa.symm.trans hj)
    exact ⟨hpage, hbits⟩
  constructor
  case table =>
    intro p x hx hf
    obtain ⟨f, -, hxf⟩ := hc.tableAt hx hf
    exact ⟨f, hxf⟩
  case owner =>
    intro f hf
    obtain ⟨pt, hpt⟩ := Option.ne_none_iff_exists'.mp hf
    obtain ⟨p, x, hx, hxf⟩ := hc.owner trivial hpt
    refine ⟨p, ⟨x, hx, hxf⟩, ?_⟩
    rintro q ⟨y, hy, hyf⟩
    exact hc.tableAt_inj hy hx hyf hxf
  case address =>
    intro p x v e hx he hval
    obtain ⟨i, -, hfa, -⟩ := hc.valid hx he hval
    exact ⟨i, hfa⟩
  case page =>
    intro p x hx _ v i
    constructor
    · rintro ⟨e, he, hval, hfa⟩
      exact (hpage hx he hval hfa).1
    · exact hi.held hx
  case bits =>
    intro p x v e i hx he hval hfa
    exact (hpage hx he hval hfa).2
  case clean =>
    intro f hocc
    exact ⟨hc.free trivial hocc, hc.clean trivial hocc⟩
  case one_page =>
    intro p q x y v u e e' hx hy he he' hval hval' hsame
    obtain ⟨i, -, hfa, hpx, -⟩ := hc.valid hx he hval
    obtain ⟨hpy, -⟩ := hpage hy he' hval' (hsame.symm.trans hfa)
    exact ⟨hc.wf.ids hx hy (hpx.processId.symm.trans hpy.processId),
      hpx.vpage.symm.trans hpy.vpage⟩
  case one_frame =>
    intro p x v i j hx hpi hpj
    obtain ⟨e, he, -, hfi⟩ := hi.held hx hpi
    obtain ⟨e', he', -, hfj⟩ := hi.held hx hpj
    obtain rfl := Option.some.inj (he.symm.trans he')
    exact coe_inj (hfi.symm.trans hfj)
  case hit =>
    intro p q x y v c m' hx hf hv hchk hy hq u
    obtain ⟨f, j, pt, e, hxf, hpt, he, -, -, rfl⟩ := hit_inv hi hx hf hv hchk
    rw [touched_entry hpt he, if_neg]
    rintro ⟨hyf, -⟩
    obtain ⟨g, -, hyg⟩ := hc.tableAt hy (by omega)
    obtain rfl := coe_inj (hyg.index.symm.trans hyf)
    exact hq (hc.tableAt_inj hy hx hyg hxf)

/-! ### Explicit runs -/

/-- A call of an explicit run; the clock shows `t`. -/
inductive Op
  | receive (d : ProcessData)
  | start (t : ℤ) (p : Ptr)
  | request (t : ℤ) (p : Ptr) (v : ℤ) (c : Char)
  | unreserve (i : ℤ)
  | clear
  | finish (p : Ptr)

/-- The PCB of a live process. -/
def alive (m : Mem) (p : Ptr) : Option PCB := if p ∈ m.currentPCBs then m.heap p else none

theorem alive_eq_some (h : m.alive p = some x) : m.Live p x := by
  rw [alive] at h
  split_ifs at h with hp
  exact ⟨hp, h⟩

/-- A miss changes nothing. -/
theorem check_miss_same {v : ℤ} {c : Char} (h : m.check p v c = .ok (.miss, m')) : m' = m := by
  obtain ⟨x, -, h⟩ := bind_eq_ok.mp h
  obtain ⟨f, -, h⟩ := bind_eq_ok.mp h
  rcases ite_eq_ok h with ⟨-, h⟩ | ⟨-, h⟩
  · exact nomatch h
  · obtain ⟨pt, -, h⟩ := bind_eq_ok.mp h
    obtain ⟨e, -, h⟩ := bind_eq_ok.mp h
    rcases ite_eq_ok h with ⟨-, h⟩ | ⟨-, h⟩
    · obtain ⟨m₁, -, h⟩ := bind_eq_ok.mp h
      obtain ⟨g, -, h⟩ := bind_eq_ok.mp h
      exact nomatch h
    · exact ((Prod.mk.inj (Except.ok.inj h)).2).symm

/-- A call of `check` and, at a miss, of `fault_handler`. Nobody is running. -/
def request (m : Mem) (t : ℤ) (p : Ptr) (v : ℤ) (c : Char) : Option Mem :=
  (m.alive p).bind fun x =>
    if x.frameIndex ≠ -1 ∧ (0 ≤ v ∧ v < x.limit) ∧ m.currProcess = none then
      (m.check p v c).toOption.bind fun r =>
        match r.1 with
        | .hit => some r.2
        | .miss => (m.faultHandler (fun _ => t) x.id v .demand [] c).toOption
        | .invalid => none
    else none

theorem request_cases {t : ℤ} (h : m.request t p v c = some m') : ∃ x, m.Live p x ∧
    x.frameIndex ≠ -1 ∧ (0 ≤ v ∧ v < x.limit) ∧ (m.check p v c = .ok (.hit, m') ∨
      (m.check p v c = .ok (.miss, m) ∧ Reschedule m m ∧
        m.faultHandler (fun _ => t) x.id v .demand [] c = .ok m')) := by
  obtain ⟨x, hx, h⟩ := Option.bind_eq_some_iff.mp h
  split_ifs at h with hc
  obtain ⟨hf, hv, hcur⟩ := hc
  obtain ⟨⟨r, m₁⟩, hr, h⟩ := Option.bind_eq_some_iff.mp h
  have hchk := toOption_eq_some.mp hr
  refine ⟨x, alive_eq_some hx, hf, hv, ?_⟩
  cases r with
  | hit => exact Or.inl (hchk.trans (congrArg _ (congrArg _ (Option.some.inj h))))
  | miss =>
    obtain rfl := check_miss_same hchk
    refine Or.inr ⟨hchk, ⟨SameProcs.refl m₁, rfl, rfl, fun q hq => ?_⟩,
      toOption_eq_some.mp h⟩
    rw [hcur] at hq
    cases hq
  | invalid => cases h

/-- Make a call. -/
def act (m : Mem) : Op → Option Mem
  | .receive d =>
    if (∀ q ∈ m.currentPCBs, ∀ x ∈ m.heap q, x.id ≠ d.id) ∧ 1 ≤ d.limit ∧ d.limit ≤ 64 then
      some (m.create d)
    else none
  | .start t p => (m.alive p).bind fun _ => (m.initializePCB (fun _ => t) p).toOption
  | .request t p v c => m.request t p v c
  | .unreserve i => (m.freeReserved i).toOption
  | .clear => m.clearRecent.toOption
  | .finish p => (m.alive p).bind fun x =>
    if x.frameIndex ≠ -1 then (m.release p).toOption else none

/-- **A call is a step.** -/
theorem act_step {o : Op} (h : m.act o = some m') : Step m m' := by
  cases o with
  | receive d =>
    rw [act] at h
    split_ifs at h with hc
    obtain rfl := Option.some.inj h
    exact .receive (fun q x hx => hc.1 q hx.1 x hx.2) hc.2
  | start t p =>
    obtain ⟨x, hx, h⟩ := Option.bind_eq_some_iff.mp h
    exact .start (alive_eq_some hx) (toOption_eq_some.mp h)
  | request t p v c =>
    obtain ⟨x, hx, hf, hv, hhit | ⟨hmiss, hsame, hfault⟩⟩ := request_cases h
    · exact .hit hx hf hv hhit
    · exact .fault hx hf hv hmiss hsame hfault
  | unreserve i => exact .unreserve (toOption_eq_some.mp h)
  | clear => exact .clear (toOption_eq_some.mp h)
  | finish p =>
    obtain ⟨x, hx, h⟩ := Option.bind_eq_some_iff.mp h
    split_ifs at h with hf
    exact .finish (alive_eq_some hx) hf (toOption_eq_some.mp h)

/-- A process with 40 pages and one with a single page start; their page tables and their pages 0
are in the frames 0 to 3. -/
def startOps : List Op :=
  [.receive ⟨1, 1, 1, 9, 0, 0, 40⟩, .receive ⟨1, 2, 1, 9, 0, 0, 1⟩, .start 1 0, .start 1 1]

/-- The first one asks for its pages 1 to 28, which fill the memory, and the `R` bits are
cleared. -/
def fillOps : List Op :=
  startOps ++ ((List.range 28).flatMap fun i =>
    [.request 2 0 (i + 1) 'r', .unreserve (i + 4)]) ++ [.clear]

/-- The first process writes to its page 0, and asks for its page 29: that takes the frame 3 from
the page of the second one. -/
def evictOps : List Op := fillOps ++ [.request 3 0 0 'w', .request 3 0 29 'w']

theorem reachable_mapping_evicted : ∃ m,
    TransitionSystem.playAll act Mem.init evictOps = some m ∧
    ((m.RAM 3).processId, (m.RAM 3).vpage, (m.RAM 3).M) = (1, 29, true) ∧
    ((m.heap 1).bind fun x => (m.entry x 0).map PTE.valid) = some false ∧ m.Mapping := by
  have hrun : (TransitionSystem.playAll act Mem.init evictOps).map (fun m =>
      (((m.RAM 3).processId, (m.RAM 3).vpage, (m.RAM 3).M),
        (m.heap 1).bind fun x => (m.entry x 0).map PTE.valid)) =
      some ((1, 29, true), some false) := by
    decide +kernel
  obtain ⟨m, hm, he⟩ := Option.map_eq_some_iff.mp hrun
  obtain ⟨hframe, hentry⟩ := Prod.mk.inj he
  have hreach : system.Reachable m :=
    TransitionSystem.Reachable.playAll (fun _ _ _ h => act_step h) (.init rfl) hm
  exact ⟨m, hm, hframe, hentry, reachable_mapping hreach⟩

end Mem

end CpuScheduler
