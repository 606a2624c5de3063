import CpuScheduler.Mmu.Effects

/-!
# The fault handler

What `fault_handler` leaves behind, for each thing it can be asked to load and each
result of its scan. The scan has three results
(`CpuScheduler.Mem.scan_free`, `CpuScheduler.Mem.scan_victim`,
`CpuScheduler.Mem.scan_nothing`), and the three types of fault share the two ways of
filling a frame: `put_page_in_frame` or `define_page_table` into a free frame,
`swap` into an occupied one.

A demand fault on a page from 64 on behaves differently on the two ways: the free
frame receives the page that was asked for, the evicted frame receives the page 64
below it, and neither sets the time at which the process is unblocked.
-/

namespace CpuScheduler

namespace Mem

variable {m m' : Mem} {p q : Ptr} {x y z : PCB} {f i : Fin 32} {v : ℤ} {c : Char} {clk : Clk}
  {RAM : Fin 32 → Frame}

/-! ### The scan -/

/-- What a result of the scan says about the frames it went over, when it started
with the victim `w` of class `cls`. -/
def ScanSpec (RAM : Fin 32 → Frame) (l : List (Fin 32)) (cls : ℕ) (w : Option (Fin 32)) :
    ScanResult → Prop
  | .free i => i ∈ l ∧ (RAM i).occupied = false
  | .victim i => (∀ j ∈ l, (RAM j).occupied = true) ∧
      (w = some i ∨ (i ∈ l ∧ (RAM i).pte = none ∧ (RAM i).reserved = false))
  | .nothing => w = none ∧ ∀ j ∈ l, (RAM j).occupied = true ∧
      ((RAM j).pte ≠ none ∨ (RAM j).reserved = true ∨ cls ≤ frameClass (RAM j))

/-- An occupied frame in front: it became the victim, or the scan went past it. -/
theorem ScanSpec.cons {l : List (Fin 32)} {cls cls' : ℕ} {w w' : Option (Fin 32)} {j : Fin 32}
    {r : ScanResult} (h : ScanSpec RAM l cls' w' r) (hocc : (RAM j).occupied = true)
    (hw : w' = w ∨ (w' = some j ∧ (RAM j).pte = none ∧ (RAM j).reserved = false))
    (hn : w' = none → cls' = cls ∧
      ((RAM j).pte ≠ none ∨ (RAM j).reserved = true ∨ cls ≤ frameClass (RAM j))) :
    ScanSpec RAM (j :: l) cls w r := by
  cases r with
  | free i => exact ⟨List.mem_cons_of_mem _ h.1, h.2⟩
  | victim i =>
    refine ⟨List.forall_mem_cons.mpr ⟨hocc, h.1⟩, ?_⟩
    rcases h.2 with hi | ⟨hi, hp, hr⟩
    · rcases hw with rfl | ⟨rfl, hp, hr⟩
      · exact Or.inl hi
      · obtain rfl := Option.some.inj hi
        exact Or.inr ⟨List.mem_cons_self, hp, hr⟩
    · exact Or.inr ⟨List.mem_cons_of_mem _ hi, hp, hr⟩
  | nothing =>
    obtain ⟨rfl, hj⟩ := hn h.1
    refine ⟨?_, List.forall_mem_cons.mpr ⟨⟨hocc, hj⟩, h.2⟩⟩
    rcases hw with rfl | ⟨hw, -⟩
    · exact h.1
    · exact nomatch h.1.symm.trans hw

/-- **The scan finds what it says it finds.** -/
theorem scanFrom_spec : ∀ (l : List (Fin 32)) (cls : ℕ) (w : Option (Fin 32)),
    ScanSpec RAM l cls w (scanFrom RAM l cls w)
  | [], _, none => ⟨rfl, List.forall_mem_nil _⟩
  | [], _, some _ => ⟨List.forall_mem_nil _, Or.inl rfl⟩
  | j :: l, cls, w => by
    unfold scanFrom
    split_ifs with hfree hskip hcls
    · exact ⟨List.mem_cons_self, by simpa using hfree⟩
    · refine (scanFrom_spec l cls w).cons (by simpa using hfree) (Or.inl rfl) fun _ => ⟨rfl, ?_⟩
      rcases Bool.or_eq_true_iff.mp hskip with hp | hr
      · exact Or.inl (Option.isSome_iff_ne_none.mp hp)
      · exact Or.inr (Or.inl hr)
    · refine (scanFrom_spec l _ (some j)).cons (by simpa using hfree) (Or.inr ⟨rfl, ?_⟩)
        fun h => nomatch h
      simpa using hskip
    · exact (scanFrom_spec l cls w).cons (by simpa using hfree) (Or.inl rfl)
        fun _ => ⟨rfl, Or.inr (Or.inr (not_lt.mp hcls))⟩

theorem frameClass_lt (fr : Frame) : frameClass fr < 4 := by
  unfold frameClass
  cases fr.R <;> cases fr.M <;> decide

/-- What the scan over all frames says. -/
theorem scan_spec {r : ScanResult} (h : scan RAM = r) :
    ScanSpec RAM (List.finRange 32) 4 none r := h ▸ scanFrom_spec _ _ _

/-- **A free frame is one that is not occupied.** -/
theorem scan_free (h : scan RAM = .free i) : (RAM i).occupied = false := (scan_spec h).2

/-- **A victim holds a page that is not reserved**, and no frame is free. -/
theorem scan_victim (h : scan RAM = .victim i) :
    (RAM i).pte = none ∧ (RAM i).reserved = false ∧ ∀ j, (RAM j).occupied = true := by
  obtain ⟨hall, hi⟩ := scan_spec h
  obtain ⟨-, hp, hr⟩ := hi.resolve_left fun hi => nomatch hi
  exact ⟨hp, hr, fun j => hall j (List.mem_finRange j)⟩

/-- **The scan comes back with nothing exactly when every frame is occupied by a
page table or a reserved page.** -/
theorem scan_nothing :
    scan RAM = .nothing ↔
      ∀ j, (RAM j).occupied = true ∧ ((RAM j).pte ≠ none ∨ (RAM j).reserved = true) := by
  constructor
  · intro h j
    obtain ⟨hocc, hj⟩ := (scan_spec h).2 j (List.mem_finRange j)
    refine ⟨hocc, hj.imp_right fun h => h.resolve_right fun hc => ?_⟩
    exact absurd (frameClass_lt (RAM j)) (not_lt.mpr hc)
  · intro h
    cases hs : scan RAM with
    | free i => exact absurd (scan_free hs) (by rw [(h i).1]; exact Bool.true_eq_false_eq_False)
    | victim i =>
      obtain ⟨hp, hr, -⟩ := scan_victim hs
      rcases (h i).2 with hp' | hr'
      · exact absurd hp hp'
      · exact nomatch hr.symm.trans hr'
    | nothing => rfl

/-! ### `swap` -/

/-- **The first half of `swap`**: the victim's owner loses the page, and nobody else
does. -/
theorem invalidate_eq (h : m.Placed Everywhere) (hocc : (m.RAM i).occupied = true)
    (hpte : (m.RAM i).pte = none) :
    ∃ q z m', m.Live q z ∧ (m.RAM i).processId = z.id ∧ z.frameIndex ≠ -1 ∧
      m.invalidate i = .ok m' ∧ FramesOnly m m' ∧ Evicted m m' z i := by
  obtain ⟨q, z, hz, hid, hzf, h0, hlt⟩ := h.inside trivial hocc hpte
  obtain ⟨g, -, hg⟩ := h.tableAt hz hzf
  obtain ⟨pt, e, hpt, he⟩ := hg.entryOf_some h0 hlt
  have hgi : i ≠ g := by
    rintro rfl
    exact hg.pte_ne_none hpte
  have hcond : z.frameIndex ≥ 0 ∧ (m.RAM i).vpage ≥ 0 := ⟨by have := hg.index; omega, h0⟩
  have hinv : m.invalidate i = .ok (m.setEntry g pt (m.RAM i).vpage PTE.empty) := by
    rw [invalidate, hid]
    simp only [getProcess_live h.wf hz, Fallible.ok_bind, pcb_eq hz.2]
    rw [if_pos hcond, hg.index, writePte_eq _ hpt he]
  refine ⟨q, z, _, hz, hid, hzf, hinv, ⟨rfl, rfl, rfl, rfl⟩, fun y u => ?_,
    fun f => ?_, fun f => ?_, ?_⟩
  · rw [entry_setEntry hpt he, hg.index]
  · exact shape_setEntry hpt f
  · exact bits_setEntry f
  · exact setEntry_RAM_of_ne hgi

/-- Writing the entry and filling the frame, the way `swap` does it. -/
theorem map_eq {e : PTE} {w : Bool} (hf : m.TableAt x f) (hi : (m.RAM i).pte = none)
    (he : m.entry x v = some e) (r : Bool) :
    ∃ m₁, m.writePte x.frameIndex v
        (fun _ => { valid := true, frameAddress := i, R := true, M := w }) = .ok m₁ ∧
      FramesOnly m m₁ ∧
      Loaded m (m₁.setFrame i fun fr =>
        { fr with
          M := w, processId := x.id, R := true, occupied := true, vpage := v,
          reserved := fr.reserved || r }) x v i w ∧
      m₁.RAM i = m.RAM i := by
  obtain ⟨g, pt, hg, hpt, he⟩ := entry_eq_some he
  obtain rfl := coe_inj (hf.index.symm.trans hg)
  have hfi : i ≠ f := by
    rintro rfl
    exact hf.pte_ne_none hi
  have hwrite : m.writePte x.frameIndex v
      (fun _ => { valid := true, frameAddress := i, R := true, M := w }) =
      .ok (m.setEntry f pt v { valid := true, frameAddress := i, R := true, M := w }) := by
    rw [hf.index]
    exact writePte_eq _ hpt he
  refine ⟨_, hwrite, ⟨rfl, rfl, rfl, rfl⟩,
    loaded_of_RAM _ hf hi hpt he (setFrame_RAM ..) rfl ?_ rfl rfl rfl rfl, setEntry_RAM_of_ne hfi⟩
  simp only [setEntry_RAM_of_ne hfi, hi]

@[simp] theorem blocks_demand (v : ℤ) : blocks .demand v = decide (v < 64) := by
  simp [blocks]

@[simp] theorem blocks_firstPage (v : ℤ) : blocks .firstPage v = false := by
  simp [blocks]

theorem swapPage_demand (v : ℤ) : swapPage .demand v = if v < 64 then v else v - 64 := by
  unfold swapPage
  by_cases hv : v < 64
  · simp [hv]
  · simp [hv, not_lt.mp hv]

theorem swapPage_firstPage : swapPage .firstPage 0 = 0 := by decide

/-- A process blocked by a demand fault until `t`. -/
def blockedUntil (x : PCB) (t v : ℤ) : PCB :=
  if blocks .demand v then { x with state := .B, unblockAt := t } else x

@[simp] theorem blockedUntil_key (x : PCB) (t v : ℤ) : (blockedUntil x t v).key = x.key := by
  unfold blockedUntil
  split_ifs <;> rfl

/-- A loaded page is described by the frames and by the id and `frame_index` of its
process; of the frame it goes to, only the table it did not hold matters. -/
theorem Loaded.congr {m₁ m₁' : Mem} {w : Bool} (h : Loaded m₁ m₁' y v i w)
    (hr : ∀ f, f ≠ i → m.RAM f = m₁.RAM f) (hi : (m.RAM i).pte = (m₁.RAM i).pte)
    (hr' : m'.RAM = m₁'.RAM) (hid : x.id = y.id) (hidx : x.frameIndex = y.frameIndex) :
    Loaded m m' x v i w where
  page := ⟨hr' ▸ h.page.occupied, hr' ▸ h.page.page, by rw [hr', hid, h.page.processId],
    hr' ▸ h.page.vpage⟩
  R := hr' ▸ h.R
  M := hr' ▸ h.M
  entry z u := by
    have hpte : ∀ f, (m.RAM f).pte = (m₁.RAM f).pte := by
      intro f
      by_cases hf : f = i
      · rw [hf, hi]
      · rw [hr f hf]
    rw [@entry_congr m₁' m' _ fun f _ => by rw [hr'], h.entry, hidx,
      @entry_congr m₁ m _ fun f _ => hpte f]
  shape f hf := by rw [hr f hf, hr', h.shape f hf]
  bits f hf := by rw [hr f hf, hr', h.bits f hf]

theorem Loaded.congr_RAM {m₁ m₁' : Mem} {w : Bool} (h : Loaded m₁ m₁' x v i w)
    (hr : m.RAM = m₁.RAM) (hr' : m'.RAM = m₁'.RAM) : Loaded m m' x v i w :=
  h.congr (fun _ _ => by rw [hr]) (by rw [hr]) hr' rfl rfl

/-- **The second half of `swap`, for a demand fault.** -/
theorem replace_demand_eq (clk : Clk) {t : ℤ} {e : PTE} (hx : m.Live p x) (hf : m.TableAt x f)
    (hi : (m.RAM i).pte = none) (he : m.entry x (swapPage .demand v) = some e) :
    ∃ m', m.replace clk t x.id p i v .demand c = .ok m' ∧
      FramesOnly (m.withPcb p { blockedUntil x t v with
        pendingPage := swapPage .demand v, pendingFrame := i }) m' ∧
      Loaded m m' x (swapPage .demand v) i (c = 'w') ∧ (m'.RAM i).reserved = true := by
  obtain ⟨m₁, hm₁, honly, hld, hsame⟩ := map_eq (m := m.withPcb p (blockedUntil x t v))
    (w := c = 'w') ⟨hf.index, hf.occupied, hf.processId, hf.table⟩ hi he true
  have hx₁ : m₁.heap p = some (blockedUntil x t v) := by
    rw [honly.heap, withPcb_heap_self]
  have hblock : m.setPcbIf (blocks .demand v) p (fun o => { o with state := .B, unblockAt := t }) =
      .ok (m.withPcb p (blockedUntil x t v)) := setPcbIf_eq hx.2 _ _
  have hrep : m.replace clk t x.id p i v .demand c =
      .ok ((m₁.setFrame i fun fr =>
        { fr with
          M := c = 'w', processId := x.id, R := true, occupied := true, vpage := swapPage .demand v,
          reserved := fr.reserved || true }).withPcb p
        { blockedUntil x t v with pendingPage := swapPage .demand v, pendingFrame := i }) := by
    rw [replace, pcb_eq hx.2, Fallible.ok_bind]
    simp only [logIf, reduceCtorEq, decide_false, Bool.false_eq_true, if_false]
    rw [hblock, Fallible.ok_bind, hm₁, Fallible.ok_bind]
    exact setPcbIf_eq (m := m₁.setFrame i _) hx₁ _ _
  refine ⟨_, hrep, ⟨?_, honly.brk, honly.pcbs, honly.cur⟩,
    hld.congr_RAM rfl rfl, ?_⟩
  · simp only [withPcb, setFrame_heap, honly.heap, Function.update_idem]
  · simp only [withPcb_RAM, setFrame_RAM, Function.update_self, Bool.or_true]

/-- **The second half of `swap`, for page 0 of a process that starts.** -/
theorem replace_firstPage_eq (clk : Clk) {t : ℤ} {e : PTE} (hx : m.Live p x) (hf : m.TableAt x f)
    (hi : (m.RAM i).pte = none) (he : m.entry x 0 = some e) :
    ∃ m', m.replace clk t x.id p i 0 .firstPage c = .ok m' ∧ FramesOnly m m' ∧
      Loaded m m' x 0 i (c = 'w') ∧ (m'.RAM i).reserved = (m.RAM i).reserved := by
  obtain ⟨m₁, hm₁, honly, hld, hsame⟩ :=
    map_eq (m := m.logLine (.loaded (clk .swapLog) (x.base + 0) x.id i)) (w := c = 'w')
      ⟨hf.index, hf.occupied, hf.processId, hf.table⟩ hi he false
  have hrep : m.replace clk t x.id p i 0 .firstPage c =
      .ok (m₁.setFrame i fun fr =>
        { fr with
          M := c = 'w', processId := x.id, R := true, occupied := true, vpage := 0,
          reserved := fr.reserved || false }) := by
    rw [replace, pcb_eq hx.2, Fallible.ok_bind]
    simp only [logIf, setPcbIf, swapPage_firstPage, blocks_firstPage, decide_true, if_true,
      reduceCtorEq, decide_false, Bool.false_eq_true, if_false, Fallible.ok_bind, ne_eq,
      not_true_eq_false]
    rw [hm₁, Fallible.ok_bind]
  refine ⟨_, hrep, ⟨honly.heap, honly.brk, honly.pcbs, honly.cur⟩, hld.congr_RAM rfl rfl, ?_⟩
  simp only [setFrame_RAM, Function.update_self, Bool.or_false, hsame, logLine_RAM]

theorem FramesOnly.withPcb (h : FramesOnly m m') (p : Ptr) (x : PCB) :
    FramesOnly (m.withPcb p x) (m'.withPcb p x) :=
  ⟨by rw [Mem.withPcb, Mem.withPcb, h.heap], h.brk, h.pcbs, h.cur⟩

theorem framesOnly_logIf (m : Mem) (b : Bool) (l : MemLine) : FramesOnly m (m.logIf b l) :=
  ⟨logIf_heap .., logIf_brk .., logIf_currentPCBs .., logIf_currProcess ..⟩

theorem Evicted.tableAt (h : Evicted m m' z i) (hf : m.TableAt x f) : m'.TableAt x f :=
  hf.congr (h.shape f) rfl rfl rfl

/-- Evicting a page does not take an entry out of the tables. -/
theorem Evicted.entry_some {e : PTE} (h : Evicted m m' z i) (he : m.entry x v = some e) :
    ∃ e', m'.entry x v = some e' := by
  rw [h.entry]
  split_ifs
  · exact ⟨_, rfl⟩
  · exact ⟨e, he⟩

/-- A page of the process `x` has gone into the frame `i`: a free frame, or one that
lost its page first. -/
inductive PageIn (m m' : Mem) (x : PCB) (v : ℤ) (i : Fin 32) (w : Bool) : Prop
  | free (hocc : (m.RAM i).occupied = false) (hl : Loaded m m' x v i w)
  | evict {q : Ptr} {z : PCB} {r : Fin 32 → Frame} (hocc : (m.RAM i).occupied = true)
      (hpte : (m.RAM i).pte = none) (hres : (m.RAM i).reserved = false) (hz : m.Live q z)
      (hid : (m.RAM i).processId = z.id)
      (he : Evicted m { m with RAM := r } z i) (hl : Loaded { m with RAM := r } m' x v i w)

/-- The page table of the process `x` has gone into the frame `i`. -/
inductive TableIn (m m' : Mem) (x : PCB) (i : Fin 32) : Prop
  | free (hocc : (m.RAM i).occupied = false) (ha : Assigned m m' x i)
  | evict {q : Ptr} {z : PCB} {r : Fin 32 → Frame} (hocc : (m.RAM i).occupied = true)
      (hpte : (m.RAM i).pte = none) (hres : (m.RAM i).reserved = false) (hz : m.Live q z)
      (hid : (m.RAM i).processId = z.id)
      (he : Evicted m { m with RAM := r } z i) (ha : Assigned { m with RAM := r } m' x i)

/-- Only the frames of the state between matter. -/
theorem Evicted.congr {m₁ : Mem} (h : Evicted m m₁ z i) (hr : m'.RAM = m.RAM)
    (hidx : y.frameIndex = z.frameIndex) : Evicted m' { m' with RAM := m₁.RAM } y i where
  entry x u := by
    rw [hr, hidx, @entry_congr m₁ { m' with RAM := m₁.RAM } _ fun _ _ => rfl, h.entry,
      @entry_congr m m' _ fun _ _ => by rw [hr]]
  shape f := by rw [hr]; exact h.shape f
  bits f := by rw [hr]; exact h.bits f
  victim := by rw [hr]; exact h.victim

/-- A change of the PCBs that keeps their keys does not concern the frames. -/
theorem PageIn.congr {m₁ : Mem} {w : Bool} (h : PageIn m₁ m' y v i w) (hp : SameProcs m m₁)
    (hr : m₁.RAM = m.RAM) (hid : y.id = x.id) (hidx : y.frameIndex = x.frameIndex) :
    PageIn m m' x v i w := by
  cases h with
  | free hocc hl =>
    exact .free (hr ▸ hocc) (hl.congr (fun _ _ => by rw [hr]) (by rw [hr]) rfl hid.symm hidx.symm)
  | evict hocc hpte hres hz hzid he hl =>
    obtain ⟨z', hz', hid', -, hidx'⟩ := hp.live hz
    exact .evict (hr ▸ hocc) (hr ▸ hpte) (hr ▸ hres) hz' (by rw [← hr, hzid, hid'])
      (he.congr hr.symm hidx') (hl.congr (fun _ _ => rfl) rfl rfl hid.symm hidx.symm)

/-- **`swap` for a demand fault.** -/
theorem swap_demand_eq (clk : Clk) {e : PTE} (h : m.Placed Everywhere) (hx : m.Live p x)
    (hf : m.TableAt x f) (hocc : (m.RAM i).occupied = true) (hpte : (m.RAM i).pte = none)
    (hvict : (m.RAM i).reserved = false) (he : m.entry x (swapPage .demand v) = some e) :
    ∃ m', m.swap clk x.id i v .demand c = .ok m' ∧
      FramesOnly (m.withPcb p { blockedUntil x (clk .swapDelay + m.pageFaultDelay i) v with
        pendingPage := swapPage .demand v, pendingFrame := i }) m' ∧
      PageIn m m' x (swapPage .demand v) i (c = 'w') ∧ (m'.RAM i).reserved = true := by
  obtain ⟨q, z, m₁, hz, hid, -, hinv, hlost, hev⟩ := invalidate_eq h hocc hpte
  have hlog := hlost.trans (framesOnly_logIf m₁
    (decide ((m₁.RAM i).M = true ∧ FaultType.demand ≠ .firstPage)) (.swappedOut i))
  obtain ⟨e', he'⟩ := hev.entry_some he
  generalize ht : (if v < 64 ∧ FaultType.demand ≠ .firstPage then
    clk .swapDelay + m.pageFaultDelay i else clk .swapBase) = t
  have hblocked : blockedUntil x t v =
      blockedUntil x (clk .swapDelay + m.pageFaultDelay i) v := by
    by_cases hv : v < 64
    · have : t = clk .swapDelay + m.pageFaultDelay i := by simp [← ht, hv]
      rw [this]
    · simp [blockedUntil, hv]
  obtain ⟨m', hrep, honly, hld, hres⟩ := replace_demand_eq clk (t := t) (c := c)
    (hlog.live.mpr hx) (f := f) (i := i) (v := v) (e := e')
    ((hev.tableAt hf).congr (by rw [logIf_RAM]) rfl rfl rfl)
    (by rw [logIf_RAM, hev.victim, hpte])
    (by rw [entry_congr (m := m₁) fun f _ => by rw [logIf_RAM], he'])
  refine ⟨m', ?_, ?_, .evict hocc hpte hvict hz hid (hev.congr rfl rfl)
    (hld.congr_RAM (logIf_RAM m₁ _ _).symm rfl), hres⟩
  · rw [swap, hinv, Fallible.ok_bind, if_neg (by simp), ht]
    simp only [getProcess_live (hlog.wf h.wf) (hlog.live.mpr hx), Fallible.ok_bind]
    exact hrep
  · rw [← hblocked]
    exact (hlog.withPcb p _).trans honly

/-- **`swap` for page 0 of a process that starts.** -/
theorem swap_firstPage_eq (clk : Clk) {e : PTE} (h : m.Placed Everywhere) (hx : m.Live p x)
    (hf : m.TableAt x f) (hocc : (m.RAM i).occupied = true) (hpte : (m.RAM i).pte = none)
    (hvict : (m.RAM i).reserved = false) (he : m.entry x 0 = some e) :
    ∃ m', m.swap clk x.id i 0 .firstPage c = .ok m' ∧ FramesOnly m m' ∧
      PageIn m m' x 0 i (c = 'w') ∧ (m'.RAM i).reserved = (m.RAM i).reserved := by
  obtain ⟨q, z, m₁, hz, hid, -, hinv, hlost, hev⟩ := invalidate_eq h hocc hpte
  have hlog := hlost.trans (framesOnly_logIf m₁
    (decide ((m₁.RAM i).M = true ∧ FaultType.firstPage ≠ .firstPage)) (.swappedOut i))
  obtain ⟨e', he'⟩ := hev.entry_some he
  obtain ⟨m', hrep, honly, hld, hres⟩ := replace_firstPage_eq clk
    (t := if (0 : ℤ) < 64 ∧ FaultType.firstPage ≠ .firstPage then
      clk .swapDelay + m.pageFaultDelay i else clk .swapBase) (c := c)
    (hlog.live.mpr hx) (f := f) (i := i) (e := e')
    ((hev.tableAt hf).congr (by rw [logIf_RAM]) rfl rfl rfl)
    (by rw [logIf_RAM, hev.victim, hpte])
    (by rw [entry_congr (m := m₁) fun f _ => by rw [logIf_RAM], he'])
  refine ⟨m', ?_, hlog.trans honly,
    .evict hocc hpte hvict hz hid (hev.congr rfl rfl)
        (hld.congr_RAM (logIf_RAM m₁ _ _).symm rfl), ?_⟩
  · rw [swap, hinv, Fallible.ok_bind, if_neg (by simp)]
    simp only [getProcess_live (hlog.wf h.wf) (hlog.live.mpr hx), Fallible.ok_bind]
    exact hrep
  · rw [hres, logIf_RAM, hev.victim]

/-- **`swap` for a page table.** -/
theorem swap_pageTable_eq (clk : Clk) (h : m.Placed Everywhere) (hx : m.Live p x)
    (hocc : (m.RAM i).occupied = true) (hpte : (m.RAM i).pte = none)
    (hres : (m.RAM i).reserved = false) :
    ∃ m', m.swap clk x.id i v .pageTable c = .ok m' ∧
      FramesOnly (m.withPcb p { x with frameIndex := i }) m' ∧ TableIn m m' x i := by
  obtain ⟨q, z, m₁, hz, hid, -, hinv, hlost, hev⟩ := invalidate_eq h hocc hpte
  obtain ⟨m', hdef, honly, ha⟩ := definePageTable_eq (i := i) (hlost.wf h.wf)
    (hlost.live.mpr hx) (h.limits hx)
  refine ⟨m', ?_, (hlost.withPcb p _).trans honly, .evict hocc hpte hres hz hid
    (hev.congr rfl rfl) ⟨ha.table, ha.frames⟩⟩
  rw [swap, hinv, Fallible.ok_bind, if_pos rfl, hdef]

/-! ### `fault_handler` -/

/-- The `unblock_at` of a process whose page goes to a free frame. -/
def delayed (clk : Clk) (x : PCB) (d v : ℤ) : PCB :=
  if decide (v < 64) then { x with unblockAt := clk .faultDelay + d } else x

theorem delayed_key (clk : Clk) (x : PCB) (d v : ℤ) : (delayed clk x d v).key = x.key := by
  rw [delayed]
  split_ifs <;> rfl

theorem key_id (h : x.key = y.key) : x.id = y.id := congrArg Prod.fst h

theorem key_limit (h : x.key = y.key) : x.limit = y.limit := congrArg (fun k => k.2.1) h

theorem key_frameIndex (h : x.key = y.key) : x.frameIndex = y.frameIndex :=
  congrArg (fun k => k.2.2) h

/-- A page put into a free frame, after the delay of its process has been set. -/
theorem delay_put_eq (clk : Clk) {e : PTE} (hw : m.Wf) (hx : m.Live p x) (hf : m.TableAt x f)
    (hpte : (m.RAM i).pte = none) (he : m.entry x v = some e) :
    ∃ m', (do
        let m ← m.delayOwner clk (some p) v i
        m.putPageInFrame x.id v i c) = .ok m' ∧
      FramesOnly (m.withPcb p (delayed clk x (m.pageFaultDelay i) v)) m' ∧
      Loaded m m' x v i (c = 'w') ∧ (m'.RAM i).reserved = (m.RAM i).reserved := by
  have hk := delayed_key clk x (m.pageFaultDelay i) v
  have hdelay : m.delayOwner clk (some p) v i =
      .ok (m.withPcb p (delayed clk x (m.pageFaultDelay i) v)) := setPcbIf_eq hx.2 _ _
  have hsp := sameProcs_withPcb hx.2 hk
  have hent : (m.withPcb p (delayed clk x (m.pageFaultDelay i) v)).entry
      (delayed clk x (m.pageFaultDelay i) v) v = some e := by
    rw [entry_withPcb, ← he, entry_eq_of_index (key_frameIndex hk)]
  obtain ⟨m', hput, honly, hld, hres⟩ := putPageInFrame_eq (c := c)
    (hsp.wf hw (hsp.cur rfl hw)) (hx.withPcb _)
    (hf.congr rfl (key_id hk) (key_limit hk) (key_frameIndex hk)) hpte hent
  rw [key_id hk] at hput
  refine ⟨m', ?_, honly, ?_, hres⟩
  · rw [hdelay, Fallible.ok_bind, hput]
  · exact hld.congr (fun _ _ => rfl) rfl rfl (key_id hk).symm (key_frameIndex hk).symm

/-- **What goes into a free frame for a demand fault.** -/
theorem fillFree_demand_eq (clk : Clk) {e : PTE} (hw : m.Wf) (hx : m.Live p x) (hf : m.TableAt x f)
    (hpte : (m.RAM i).pte = none) (he : m.entry x v = some e) :
    ∃ m', m.fillFree clk (some p) x.id v .demand i c = .ok m' ∧
      FramesOnly (m.withPcb p (delayed clk x (m.pageFaultDelay i) v)) m' ∧
      Loaded m m' x v i (c = 'w') ∧ (m'.RAM i).reserved = true := by
  let m₁ := m.setFrame i fun fr => { fr with reserved := true }
  have honly₁ : FramesOnly m m₁ := ⟨rfl, rfl, rfl, rfl⟩
  have hi : m₁.RAM i = { m.RAM i with reserved := true } := Function.update_self ..
  have hne : ∀ g, g ≠ i → m₁.RAM g = m.RAM g := fun g hg => Function.update_of_ne hg ..
  have hfi : f ≠ i := by
    rintro rfl
    exact hf.pte_ne_none hpte
  have hent : m₁.entry x v = some e := by
    rw [← he, entry, entry, tableOf_eq hf.index, tableOf_eq hf.index, hne f hfi]
  have hdel : m₁.pageFaultDelay i = m.pageFaultDelay i := by rw [pageFaultDelay, hi]; rfl
  obtain ⟨m', hput, honly, hld, hres⟩ := delay_put_eq clk (c := c) (honly₁.wf hw)
    (honly₁.live.mpr hx) (hf.congr (by rw [hne f hfi]) rfl rfl rfl) (by rw [hi]; exact hpte) hent
  refine ⟨m', hput, ?_, hld.congr (fun g hg => (hne g hg).symm) (by rw [hi]) rfl rfl rfl, ?_⟩
  · rw [← hdel]
    exact (honly₁.withPcb p _).trans honly
  · rw [hres, hi]

/-- A process whose demand fault finds no frame. -/
def lost (clk : Clk) (x : PCB) (v : ℤ) : PCB :=
  if blocks .demand v then
    { x with state := .B, unblockAt := clk .faultTentative + 10, pendingPage := -1,
             pendingFrame := -1 }
  else x

theorem lost_key (clk : Clk) (x : PCB) (v : ℤ) : (lost clk x v).key = x.key := by
  unfold lost
  split_ifs <;> rfl

theorem delayed_lost (clk : Clk) (x : PCB) (d v : ℤ) (i : Fin 32) :
    { delayed clk (lost clk x v) d v with pendingPage := v, pendingFrame := i } =
      { blockedUntil x (clk .faultDelay + d) v with pendingPage := v, pendingFrame := i } := by
  by_cases hv : v < 64
  · simp [delayed, lost, blockedUntil, hv]
  · simp [delayed, lost, blockedUntil, hv]

theorem blockedUntil_lost (clk : Clk) (x : PCB) (t u v : ℤ) (i : Fin 32) :
    { blockedUntil (lost clk x v) t v with pendingPage := u, pendingFrame := i } =
      { blockedUntil x t v with pendingPage := u, pendingFrame := i } := by
  by_cases hv : v < 64
  · simp [lost, blockedUntil, hv]
  · simp [lost, blockedUntil, hv]

/-- The state in which `fault_handler` scans the frames, after a demand fault. -/
def scanned (clk : Clk) (m : Mem) (p : Ptr) (x : PCB) (v : ℤ) (raw : List Char) : Mem :=
  (m.withPcb p (lost clk x v)).logLine (.pageFault raw x.id)

theorem framesOnly_scanned (clk : Clk) (m : Mem) (p : Ptr) (x : PCB) (v : ℤ) (raw : List Char) :
    FramesOnly (m.withPcb p (lost clk x v)) (scanned clk m p x v raw) := ⟨rfl, rfl, rfl, rfl⟩

theorem scanned_live (hx : m.Live p x) (v : ℤ) (raw : List Char) :
    (scanned clk m p x v raw).Live p (lost clk x v) :=
  (framesOnly_scanned clk m p x v raw).live.mpr (hx.withPcb _)

theorem sameProcs_scanned (clk : Clk) (hx : m.Live p x) (v : ℤ) (raw : List Char) :
    SameProcs m (scanned clk m p x v raw) :=
  (sameProcs_withPcb hx.2 (lost_key clk x v)).trans
    (framesOnly_scanned clk m p x v raw).sameProcs

theorem faultHandler_demand_scan {raw : List Char} (hw : m.Wf) (hx : m.Live p x) :
    m.faultHandler clk x.id v .demand raw c = match scan m.RAM with
      | .free i => (scanned clk m p x v raw).takeFree clk (some p) x.id v .demand i c
      | .victim i => (scanned clk m p x v raw).swap clk x.id i v .demand c
      | .nothing => .ok (scanned clk m p x v raw) := by
  have hblock : m.blockOwner clk (some p) v .demand = .ok (m.withPcb p (lost clk x v)) :=
    setPcbIf_eq hx.2 _ _
  rw [faultHandler, getProcess_live hw hx, Fallible.ok_bind, hblock, Fallible.ok_bind]
  rfl

/-- **A demand fault that finds a free frame.** -/
theorem faultHandler_demand_free (clk : Clk) (raw : List Char) {e : PTE} (h : m.Placed Everywhere)
    (hx : m.Live p x) (hf : m.TableAt x f) (he : m.entry x v = some e)
    (hs : scan m.RAM = .free i) :
    ∃ m', m.faultHandler clk x.id v .demand raw c = .ok m' ∧
      FramesOnly (m.withPcb p { blockedUntil x (clk .faultDelay + m.pageFaultDelay i) v with
        pendingPage := v, pendingFrame := i }) m' ∧
      PageIn m m' x v i (c = 'w') ∧ (m'.RAM i).reserved = true := by
  have hk := lost_key clk x v
  have hsp := sameProcs_scanned clk hx v raw
  obtain ⟨m', hfill, honly, hld, hres⟩ := fillFree_demand_eq clk (c := c) (i := i)
    (hsp.wf h.wf (hsp.cur rfl h.wf)) (scanned_live hx v raw)
    (hf.congr rfl (key_id hk) (key_limit hk) (key_frameIndex hk))
    (h.free trivial (scan_free hs)) (by rw [← he, ← entry_eq_of_index (key_frameIndex hk)]; rfl)
  rw [key_id hk] at hfill
  let y := delayed clk (lost clk x v) (m.pageFaultDelay i) v
  have hy : m'.heap p = some y := by rw [honly.heap, withPcb_heap_self]; rfl
  have hpend := setPcbIf_eq hy (decide (FaultType.demand = .demand)) fun o =>
      { o with pendingPage := v, pendingFrame := i }
  refine ⟨m'.withPcb p { y with pendingPage := v, pendingFrame := i }, ?_, ?_,
    .free (scan_free hs) (hld.congr (fun _ _ => rfl) rfl rfl (key_id hk).symm
      (key_frameIndex hk).symm), hres⟩
  · have hscan : m.faultHandler clk x.id v .demand raw c =
        (scanned clk m p x v raw).takeFree clk (some p) x.id v .demand i c := by
      rw [faultHandler_demand_scan h.wf hx, hs]
    rw [hscan, takeFree, hfill, Fallible.ok_bind]
    dsimp only
    rw [hpend, Fallible.ok_bind, pcb_eq (withPcb_heap_self ..)]
    rfl
  · rw [← delayed_lost]
    have := ((framesOnly_scanned clk m p x v raw).withPcb p y).trans honly
    have := this.withPcb p { y with pendingPage := v, pendingFrame := i }
    rwa [withPcb_withPcb, withPcb_withPcb] at this

/-- **A demand fault that evicts a page.** -/
theorem faultHandler_demand_victim (clk : Clk) (raw : List Char) {e : PTE} (h : m.Placed Everywhere)
    (hx : m.Live p x) (hf : m.TableAt x f) (he : m.entry x (swapPage .demand v) = some e)
    (hs : scan m.RAM = .victim i) :
    ∃ m', m.faultHandler clk x.id v .demand raw c = .ok m' ∧
      FramesOnly (m.withPcb p { blockedUntil x (clk .swapDelay + m.pageFaultDelay i) v with
        pendingPage := swapPage .demand v, pendingFrame := i }) m' ∧
      PageIn m m' x (swapPage .demand v) i (c = 'w') ∧ (m'.RAM i).reserved = true := by
  obtain ⟨hpte, hvict, hocc⟩ := scan_victim hs
  have hk := lost_key clk x v
  have hsp := sameProcs_scanned clk hx v raw
  have hplaced : (scanned clk m p x v raw).Placed Everywhere :=
    h.congr hsp (fun _ _ => rfl) (hsp.cur rfl h.wf)
  obtain ⟨m', hswap, honly, hin, hres⟩ := swap_demand_eq clk (c := c) (i := i) (v := v)
    hplaced (scanned_live hx v raw)
    (hf.congr rfl (key_id hk) (key_limit hk) (key_frameIndex hk)) (hocc i) hpte hvict
    (by rw [← he, ← entry_eq_of_index (key_frameIndex hk)]; rfl)
  rw [key_id hk] at hswap
  refine ⟨m', ?_, ?_, ?_, hres⟩
  · rw [faultHandler_demand_scan h.wf hx, hs]
    exact hswap
  · rw [← blockedUntil_lost]
    have := ((framesOnly_scanned clk m p x v raw).withPcb p _).trans honly
    rwa [withPcb_withPcb] at this
  · exact hin.congr hsp rfl (key_id hk) (key_frameIndex hk)

theorem faultHandler_other_scan {type : FaultType} {raw : List Char} (ht : type ≠ .demand)
    (hw : m.Wf) (hx : m.Live p x) :
    m.faultHandler clk x.id v type raw c = match scan m.RAM with
      | .free i => m.takeFree clk (some p) x.id v type i c
      | .victim i => m.swap clk x.id i v type c
      | .nothing => .ok m := by
  have hblock : m.blockOwner clk (some p) v type = .ok m := by
    simp only [blockOwner, setPcbIf, blocks, ht, decide_false, Bool.false_and,
      Bool.false_eq_true, if_false]
  have hlog : m.logIf (type = .demand) (.pageFault raw x.id) = m := by
    rw [logIf, decide_eq_false ht]
    rfl
  rw [faultHandler, getProcess_live hw hx, Fallible.ok_bind, hblock, Fallible.ok_bind]
  exact congrArg (fun m' : Mem => match scan m'.RAM with
    | .free i => m'.takeFree clk (some p) x.id v type i c
    | .victim i => m'.swap clk x.id i v type c
    | .nothing => .ok m') hlog

/-- **The page table of a process that starts**: it gets a frame unless every frame
is a page table or reserved. -/
theorem faultHandler_pageTable (clk : Clk) (raw : List Char) (h : m.Placed Everywhere)
    (hx : m.Live p x) :
    (scan m.RAM = .nothing ∧ m.faultHandler clk x.id v .pageTable raw c = .ok m) ∨
      ∃ (i : Fin 32) (m' : Mem), m.faultHandler clk x.id v .pageTable raw c = .ok m' ∧
        FramesOnly (m.withPcb p { x with frameIndex := i }) m' ∧ TableIn m m' x i := by
  rw [faultHandler_other_scan (by simp) h.wf hx]
  cases hs : scan m.RAM with
  | nothing => exact Or.inl ⟨rfl, rfl⟩
  | victim i =>
    obtain ⟨hpte, hres, hocc⟩ := scan_victim hs
    obtain ⟨m', hswap, honly, hin⟩ := swap_pageTable_eq clk (c := c) (v := v) h hx
      (hocc i) hpte hres
    exact Or.inr ⟨i, m', hswap, honly, hin⟩
  | free i =>
    obtain ⟨m', hdef, honly, ha⟩ := definePageTable_eq (i := i) h.wf hx (h.limits hx)
    have hy : m'.heap p = some { x with frameIndex := i } := by
      rw [honly.heap, withPcb_heap_self]
    refine Or.inr ⟨i, m', ?_, honly, .free (scan_free hs) ha⟩
    simp only [takeFree, fillFree, hdef, Fallible.ok_bind, setPcbIf, reduceCtorEq, decide_false,
      Bool.false_eq_true, if_false, pcb_eq hy, logIf]

/-- **Page 0 of a process that starts.** -/
theorem faultHandler_firstPage (clk : Clk) (raw : List Char) (h : m.Placed Everywhere)
    (hx : m.Live p x)
    (hf : m.TableAt x f) :
    (scan m.RAM = .nothing ∧ m.faultHandler clk x.id 0 .firstPage raw c = .ok m) ∨
      ∃ (i : Fin 32) (y : PCB) (m' : Mem), m.faultHandler clk x.id 0 .firstPage raw c = .ok m' ∧
        (y = x ∨ ∃ t, y = { x with unblockAt := t }) ∧ FramesOnly (m.withPcb p y) m' ∧
        PageIn m m' x 0 i (c = 'w') ∧ (m'.RAM i).reserved = (m.RAM i).reserved := by
  obtain ⟨e, he⟩ := hf.entry_some le_rfl (v := 0) (by have := h.limits hx; omega)
  rw [faultHandler_other_scan (by simp) h.wf hx]
  cases hs : scan m.RAM with
  | nothing => exact Or.inl ⟨rfl, rfl⟩
  | victim i =>
    obtain ⟨hpte, hres, hocc⟩ := scan_victim hs
    obtain ⟨m', hswap, honly, hin, hres⟩ := swap_firstPage_eq clk (c := c) h hx hf
      (hocc i) hpte hres he
    exact Or.inr ⟨i, x, m', hswap, Or.inl rfl, by rwa [withPcb_self hx.2], hin, hres⟩
  | free i =>
    obtain ⟨m', hput, honly, hld, hres⟩ := delay_put_eq clk (c := c) h.wf hx hf
      (h.free trivial (scan_free hs)) he
    have hdel : delayed clk x (m.pageFaultDelay i) 0 =
        { x with unblockAt := clk .faultDelay + m.pageFaultDelay i } := rfl
    have hy := honly.heap
    rw [hdel] at honly hy
    refine Or.inr ⟨i, _, m'.logLine (.loaded (clk .faultLog) (x.base + 0) x.id i), ?_,
      Or.inr ⟨_, rfl⟩, ⟨honly.heap, honly.brk, honly.pcbs, honly.cur⟩,
      .free (scan_free hs) (hld.congr_RAM rfl rfl), hres⟩
    have hpcb : m'.pcb p = .ok { x with unblockAt := clk .faultDelay + m.pageFaultDelay i } :=
      pcb_eq (by rw [hy, withPcb_heap_self])
    have hfill : m.fillFree clk (some p) x.id 0 .firstPage i c = .ok m' := hput
    simp only [takeFree, hfill, Fallible.ok_bind, setPcbIf, reduceCtorEq, decide_false,
      Bool.false_eq_true, if_false, hpcb, logIf, decide_true, if_true]

/-- **A demand fault that finds no frame**, which nothing reports. -/
theorem faultHandler_demand_nothing (clk : Clk) (raw : List Char) (hw : m.Wf) (hx : m.Live p x)
    (hs : scan m.RAM = .nothing) :
    m.faultHandler clk x.id v .demand raw c = .ok (scanned clk m p x v raw) := by
  rw [faultHandler_demand_scan hw hx, hs]

end Mem

end CpuScheduler
