import CpuScheduler.Mmu.Placement

/-!
# What the memory functions do

One specification for each function of `CpuScheduler.Mmu.Basic`, under the
placement invariant. A specification says that the call succeeds and describes the
state it leaves by what the rest of the development reads of it: the heap, the
entries of the page tables as their processes see them
(`CpuScheduler.Mem.entry`), and the shape and the bits of the frames.

Two descriptions carry the weight. `CpuScheduler.Mem.Loaded` is a page mapped into
a frame, and both `put_page_in_frame` and the second half of `swap` end in it;
`CpuScheduler.Mem.Evicted` is the first half of `swap`.
-/

namespace CpuScheduler

/-- The bits of a frame that are not part of its shape. -/
def Frame.bits (fr : Frame) : Bool × Bool × Bool := (fr.R, fr.M, fr.reserved)

namespace Mem

variable {m m' : Mem} {p q : Ptr} {x y : PCB} {f i : Fin 32} {v : ℤ} {c : Char} {clk : Clk}

/-! ### Descriptions of a change -/

/-- Only frames, and the log, have changed. -/
structure FramesOnly (m m' : Mem) : Prop where
  heap : m'.heap = m.heap
  brk : m'.brk = m.brk
  pcbs : m'.currentPCBs = m.currentPCBs
  cur : m'.currProcess = m.currProcess

theorem FramesOnly.refl (m : Mem) : FramesOnly m m := ⟨rfl, rfl, rfl, rfl⟩

theorem FramesOnly.trans {m₁ m₂ m₃ : Mem} (h : FramesOnly m₁ m₂) (h' : FramesOnly m₂ m₃) :
    FramesOnly m₁ m₃ :=
  ⟨h'.heap.trans h.heap, h'.brk.trans h.brk, h'.pcbs.trans h.pcbs, h'.cur.trans h.cur⟩

theorem FramesOnly.sameProcs (h : FramesOnly m m') : SameProcs m m' := .of_eq h.pcbs h.heap

theorem FramesOnly.live (h : FramesOnly m m') : m'.Live p x ↔ m.Live p x := by
  rw [Live, Live, h.pcbs, h.heap]

theorem FramesOnly.wf (h : FramesOnly m m') (hw : m.Wf) : m'.Wf :=
  h.sameProcs.wf hw (h.sameProcs.cur h.cur hw)

/-- The PCB behind a pointer has been overwritten. -/
def withPcb (m : Mem) (p : Ptr) (x : PCB) : Mem :=
  { m with heap := Function.update m.heap p (some x) }

theorem withPcb_self (h : m.heap p = some x) : m.withPcb p x = m := by
  rw [withPcb, ← h, Function.update_eq_self]

@[simp] theorem withPcb_withPcb (m : Mem) (p : Ptr) (x y : PCB) :
    (m.withPcb p x).withPcb p y = m.withPcb p y := by
  simp only [withPcb, Function.update_idem]

@[simp] theorem withPcb_heap_self (m : Mem) (p : Ptr) (x : PCB) :
    (m.withPcb p x).heap p = some x := Function.update_self ..

theorem withPcb_heap_of_ne (h : q ≠ p) (x : PCB) : (m.withPcb p x).heap q = m.heap q :=
  Function.update_of_ne h ..

@[simp] theorem withPcb_RAM (m : Mem) (p : Ptr) (x : PCB) : (m.withPcb p x).RAM = m.RAM := rfl

theorem setPcb_withPcb (h : m.heap p = some x) (g : PCB → PCB) :
    m.setPcb p g = .ok (m.withPcb p (g x)) := setPcb_eq h g

theorem setPcbIf_eq (h : m.heap p = some x) (b : Bool) (g : PCB → PCB) :
    m.setPcbIf b p g = .ok (m.withPcb p (if b then g x else x)) := by
  cases b
  · exact congrArg Except.ok (withPcb_self h).symm
  · exact setPcb_withPcb h g

theorem sameProcs_withPcb (hx : m.heap p = some x) (hk : y.key = x.key) :
    SameProcs m (m.withPcb p y) :=
  SameProcs.of_update (g := fun _ => y) hx hk rfl rfl

theorem Live.withPcb (hx : m.Live p x) (y : PCB) : (m.withPcb p y).Live p y :=
  ⟨hx.1, withPcb_heap_self m p y⟩

theorem entry_withPcb (m : Mem) (p : Ptr) (x y : PCB) (v : ℤ) :
    (m.withPcb p x).entry y v = m.entry y v := rfl

/-- The page `v` of the process `x` has been mapped into the frame `i`, which did
not hold a table; `w` says whether the access is a write. -/
structure Loaded (m m' : Mem) (x : PCB) (v : ℤ) (i : Fin 32) (w : Bool) : Prop where
  page : m'.PageAt x.id v i
  R : (m'.RAM i).R = true
  M : (m'.RAM i).M = w
  entry : ∀ (y : PCB) (u : ℤ), m'.entry y u =
    if y.frameIndex = x.frameIndex ∧ u = v then
      some { R := true, M := w, frameAddress := i, valid := true }
    else m.entry y u
  shape : ∀ f, f ≠ i → (m'.RAM f).shape = (m.RAM f).shape
  bits : ∀ f, f ≠ i → (m'.RAM f).bits = (m.RAM f).bits

/-- The page in the frame `i` has been taken out of the table of its owner `z`. -/
structure Evicted (m m' : Mem) (z : PCB) (i : Fin 32) : Prop where
  entry : ∀ (y : PCB) (u : ℤ), m'.entry y u =
    if y.frameIndex = z.frameIndex ∧ u = (m.RAM i).vpage then some PTE.empty else m.entry y u
  shape : ∀ f, (m'.RAM f).shape = (m.RAM f).shape
  bits : ∀ f, (m'.RAM f).bits = (m.RAM f).bits
  victim : m'.RAM i = m.RAM i

/-- The frame `i` has become the page table of the process `x`. -/
structure Assigned (m m' : Mem) (x : PCB) (i : Fin 32) : Prop where
  table : m'.RAM i =
    { m.RAM i with
      occupied := true, processId := x.id, R := true, M := false, vpage := -1,
      pte := some (List.replicate x.limit.toNat PTE.empty) }
  frames : ∀ f, f ≠ i → m'.RAM f = m.RAM f

/-! ### Writing an entry -/

theorem shape_setEntry {pt : List PTE} {e : PTE} (hpt : (m.RAM f).pte = some pt) (g : Fin 32) :
    ((m.setEntry f pt v e).RAM g).shape = (m.RAM g).shape := by
  by_cases hg : g = f
  · subst hg
    simp only [setEntry, setFrame, Function.update_self, Frame.shape, hpt, Option.map_some,
      List.length_set]
  · simp only [setEntry, setFrame, Function.update_of_ne hg]

theorem bits_setEntry {pt : List PTE} {e : PTE} (g : Fin 32) :
    ((m.setEntry f pt v e).RAM g).bits = (m.RAM g).bits := by
  by_cases hg : g = f
  · subst hg
    simp only [setEntry, setFrame, Function.update_self, Frame.bits]
  · simp only [setEntry, setFrame, Function.update_of_ne hg]

theorem setEntry_RAM_of_ne {pt : List PTE} {e : PTE} {g : Fin 32} (h : g ≠ f) :
    (m.setEntry f pt v e).RAM g = m.RAM g := by
  simp only [setEntry, setFrame, Function.update_of_ne h]

/-- An entry and a frame written together map a page. -/
theorem loaded_of_RAM (fr : Frame) {pt : List PTE} {e : PTE} {w : Bool}
    (hf : m.TableAt x f) (hi : (m.RAM i).pte = none) (hpt : (m.RAM f).pte = some pt)
    (he : entryOf pt v = some e)
    (hr : m'.RAM = Function.update
      (m.setEntry f pt v { R := true, M := w, frameAddress := i, valid := true }).RAM i fr)
    (hocc : fr.occupied = true) (hpte : fr.pte = none) (hid : fr.processId = x.id)
    (hv : fr.vpage = v) (hR : fr.R = true) (hM : fr.M = w) : Loaded m m' x v i w := by
  have hfi : i ≠ f := by
    rintro rfl
    exact hf.pte_ne_none hi
  have hself : m'.RAM i = fr := by rw [hr, Function.update_self]
  have hoff : ∀ g, g ≠ i → m'.RAM g =
      (m.setEntry f pt v { R := true, M := w, frameAddress := i, valid := true }).RAM g :=
    fun g hg => by rw [hr, Function.update_of_ne hg]
  refine ⟨⟨?_, ?_, ?_, ?_⟩, ?_, ?_, fun y u => ?_, fun g hg => ?_, fun g hg => ?_⟩
  · rw [hself, hocc]
  · rw [hself, hpte]
  · rw [hself, hid]
  · rw [hself, hv]
  · rw [hself, hR]
  · rw [hself, hM]
  · rw [hf.index, ← entry_setEntry hpt he y u]
    refine entry_congr (fun g _ => ?_) u
    by_cases hg : g = i
    · rw [hg, hself, hpte, setEntry_RAM_of_ne hfi, hi]
    · rw [hoff g hg]
  · rw [hoff g hg, shape_setEntry hpt]
  · rw [hoff g hg, bits_setEntry]

/-! ### `check` -/

/-- **A page above the limit is rejected without looking at the table.** -/
theorem check_invalid (hx : m.heap p = some x) (hf : x.frameIndex = f) (hv : v > x.limit) :
    m.check p v c = .ok (.invalid, m) := by
  rw [check, pcb_eq hx, Fallible.ok_bind, hf, frameAt_coe, Fallible.ok_bind, if_pos hv]

/-- **A page that is not resident is a miss.** -/
theorem check_miss {e : PTE} (hx : m.Live p x) (hf : m.TableAt x f) (hv : v < x.limit)
    (he : m.entry x v = some e) (hn : e.valid = false) :
    m.check p v c = .ok (.miss, m) := by
  obtain ⟨g, pt, hg, hpt, he⟩ := entry_eq_some he
  obtain rfl := coe_inj (hf.index.symm.trans hg)
  rw [check, pcb_eq hx.2, Fallible.ok_bind, hf.index, frameAt_coe, Fallible.ok_bind,
    if_neg (by omega), tableAt_eq hpt, Fallible.ok_bind, entryAt_eq_ok.mpr he, Fallible.ok_bind,
    if_neg (by rw [hn]; exact Bool.false_ne_true)]

/-- **At the limit itself the table is read one entry past its end.** -/
theorem check_limit (hx : m.Live p x) (hf : m.TableAt x f) :
    m.check p x.limit c = .error .outOfBounds := by
  obtain ⟨pt, hpt, hlen⟩ := hf.table
  have hout : entryAt pt x.limit = .error .outOfBounds :=
    entryAt_eq_error.mpr ⟨rfl, fun h => by omega⟩
  rw [check, pcb_eq hx.2, Fallible.ok_bind, hf.index, frameAt_coe, Fallible.ok_bind,
    if_neg (lt_irrefl _), tableAt_eq hpt, Fallible.ok_bind, hout, Fallible.error_bind]

/-- The state after a hit on the entry `e` of the table in `f`. -/
def touched (m : Mem) (f : Fin 32) (pt : List PTE) (v : ℤ) (e : PTE) (j : Fin 32) (w : Bool) :
    Mem :=
  (m.setEntry f pt v { e with R := true, M := e.M || w }).setFrame j fun fr =>
    { fr with R := true, M := fr.M || w }

/-- **A resident page is a hit**, and its bits are set in the table and in the frame. -/
theorem check_hit {e : PTE} {pt : List PTE} {j : Fin 32} (hx : m.Live p x) (hf : m.TableAt x f)
    (hv : v < x.limit) (hpt : (m.RAM f).pte = some pt) (he : entryOf pt v = some e)
    (hval : e.valid = true) (hj : e.frameAddress = j) :
    m.check p v c = .ok (.hit, m.touched f pt v e j (c = 'w')) := by
  have hfj : frameAt e.frameAddress = .ok j := by rw [hj, frameAt_coe]
  rw [check, pcb_eq hx.2, Fallible.ok_bind, hf.index, frameAt_coe, Fallible.ok_bind,
    if_neg (by omega), tableAt_eq hpt, Fallible.ok_bind, entryAt_eq_ok.mpr he, Fallible.ok_bind,
    if_pos hval, writePte_eq _ hpt he, Fallible.ok_bind, hfj, Fallible.ok_bind, touched]

/-! ### `put_page_in_frame` and `define_page_table` -/

/-- A frame after `put_page_in_frame` has filled it. -/
def filled (fr : Frame) (id v : ℤ) (w : Bool) : Frame :=
  { fr with occupied := true, processId := id, pte := none, R := true, vpage := v, M := w }

theorem putPageInFrame_eq {e : PTE} (hw : m.Wf) (hx : m.Live p x) (hf : m.TableAt x f)
    (hi : (m.RAM i).pte = none) (he : m.entry x v = some e) :
    ∃ m', m.putPageInFrame x.id v i c = .ok m' ∧ FramesOnly m m' ∧ Loaded m m' x v i (c = 'w') ∧
      (m'.RAM i).reserved = (m.RAM i).reserved := by
  obtain ⟨g, pt, hg, hpt, he⟩ := entry_eq_some he
  obtain rfl := coe_inj (hf.index.symm.trans hg)
  have hfi : f ≠ i := by
    rintro rfl
    exact hf.pte_ne_none hi
  have hlog : FramesOnly m (m.logLine (.allocated i)) := ⟨rfl, rfl, rfl, rfl⟩
  have hget := getProcess_live (hlog.wf hw) (hlog.live.mpr hx)
  have hneg : ¬x.frameIndex < 0 := by
    have := hf.index
    omega
  have hpt' : (((m.logLine (.allocated i)).setFrame i fun fr =>
      filled fr x.id v (c = 'w')).RAM f).pte = some pt := by
    rw [setFrame_RAM, Function.update_of_ne hfi]
    exact hpt
  have hput : m.putPageInFrame x.id v i c =
      .ok (((m.logLine (.allocated i)).setFrame i fun fr => filled fr x.id v (c = 'w')).setEntry
        f pt v { R := true, M := c = 'w', frameAddress := i, valid := true }) := by
    rw [putPageInFrame]
    simp only [hget, Fallible.ok_bind, pcb_eq (show (m.logLine _).heap p = some x from hx.2)]
    rw [if_neg hneg, hf.index]
    exact writePte_eq _ hpt' he
  refine ⟨_, hput, ⟨rfl, rfl, rfl, rfl⟩, loaded_of_RAM (filled (m.RAM i) x.id v (c = 'w'))
    hf hi hpt he ?_ rfl rfl rfl rfl rfl rfl, ?_⟩
  · simp only [setEntry, setFrame, logLine_RAM, Function.update_of_ne hfi]
    rw [Function.update_comm hfi]
  · simp only [setEntry, setFrame, logLine_RAM, Function.update_of_ne hfi.symm,
      Function.update_self, filled]

theorem definePageTable_eq (hw : m.Wf) (hx : m.Live p x) (hlim : 1 ≤ x.limit) :
    ∃ m', m.definePageTable x.id i = .ok m' ∧
      FramesOnly (m.withPcb p { x with frameIndex := i }) m' ∧ Assigned m m' x i := by
  have hlog : FramesOnly m (m.logLine (.allocated i)) := ⟨rfl, rfl, rfl, rfl⟩
  have hget := getProcess_live (hlog.wf hw) (hlog.live.mpr hx)
  have hneg : ¬x.limit < 0 := by omega
  have hdef : m.definePageTable x.id i =
      .ok (((m.logLine (.allocated i)).setFrame i fun fr =>
        { fr with
          occupied := true, processId := x.id, R := true, M := false, vpage := -1,
          pte := some (List.replicate x.limit.toNat PTE.empty) }).withPcb p
        { x with frameIndex := i }) := by
    rw [definePageTable]
    simp only [hget, Fallible.ok_bind, pcb_eq (show (m.logLine _).heap p = some x from hx.2)]
    rw [if_neg hneg]
    refine setPcb_withPcb ?_ _
    exact hx.2
  refine ⟨_, hdef, ?_, ?_⟩
  · exact ⟨rfl, rfl, rfl, rfl⟩
  · refine ⟨?_, fun f hf => ?_⟩
    · simp only [withPcb_RAM, setFrame_RAM, logLine_RAM, Function.update_self]
    · simp only [withPcb_RAM, setFrame_RAM, logLine_RAM, Function.update_of_ne hf]

end Mem

end CpuScheduler
