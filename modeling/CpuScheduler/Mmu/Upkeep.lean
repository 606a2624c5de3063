import CpuScheduler.Mmu.Faults

/-!
# Starting, clearing and releasing

The remaining operations of the MMU, and what all of them do to the placement
invariant: `initialize_PCB`, `clear_recent`, `freeReserved`, and the release of a
finished process. With `CpuScheduler.Mmu.Faults` every call that the scheduler makes
into the MMU is described, and `CpuScheduler.Mem.Placed` is shown to be kept by each.
-/

namespace CpuScheduler

namespace Mem

variable {m m' : Mem} {p q : Ptr} {x y z : PCB} {f i : Fin 32} {v : ℤ} {c : Char} {clk : Clk}

/-! ### Filling a frame keeps the placement -/

theorem Loaded.placed {w : Bool} (h : m.Placed (· ≠ i)) (hp : SameProcs m m')
    (hcur : ∀ p, m'.currProcess = some p → p ∈ m'.currentPCBs) (hx : m.Live p x)
    (hf : x.frameIndex ≠ -1) (h0 : 0 ≤ v) (hv : v < x.limit) (hl : Loaded m m' x v i w) :
    m'.Placed Everywhere :=
  h.fill hp hl.shape hcur hx hf h0 hv hl.page

theorem Assigned.tableAt (ha : Assigned m m' x i) (hlim : 1 ≤ x.limit) :
    m'.TableAt { x with frameIndex := i } i := by
  refine ⟨rfl, by rw [ha.table], by rw [ha.table], _, by rw [ha.table], ?_⟩
  rw [List.length_replicate]
  exact Int.toNat_of_nonneg (by omega)

theorem Assigned.placed (h : m.Placed (· ≠ i)) (hx : m.Live p x) (hn : x.frameIndex = -1)
    (ho : FramesOnly (m.withPcb p { x with frameIndex := i }) m') (ha : Assigned m m' x i) :
    m'.Placed Everywhere :=
  h.assign hx hn ho.pcbs ho.cur ho.heap ha.frames (ha.tableAt (h.limits hx))

theorem Evicted.placed (h : m.Placed Everywhere) (hpte : (m.RAM i).pte = none)
    {r : Fin 32 → Frame} (he : Evicted m { m with RAM := r } z i) :
    ({ m with RAM := r } : Mem).Placed (· ≠ i) :=
  (h.except hpte).congr (.of_eq rfl rfl) (fun f _ => he.shape f) fun _ hp => h.wf.cur hp

/-- **A page that goes into a frame keeps the placement.** -/
theorem PageIn.placed {w : Bool} (hin : PageIn m m' x v i w) (h : m.Placed Everywhere)
    (hp : SameProcs m m') (hcur : ∀ p, m'.currProcess = some p → p ∈ m'.currentPCBs)
    (hx : m.Live p x) (hf : x.frameIndex ≠ -1) (h0 : 0 ≤ v) (hv : v < x.limit) :
    m'.Placed Everywhere := by
  cases hin with
  | free hocc hl => exact hl.placed (h.except (h.free trivial hocc)) hp hcur hx hf h0 hv
  | evict hocc hpte hres hz hid he hl =>
    exact hl.placed (he.placed h hpte) ⟨hp.pcbs, hp.keys⟩ hcur hx hf h0 hv

/-- **A page table that goes into a frame keeps the placement.** -/
theorem TableIn.placed (hin : TableIn m m' x i) (h : m.Placed Everywhere) (hx : m.Live p x)
    (hn : x.frameIndex = -1) (ho : FramesOnly (m.withPcb p { x with frameIndex := i }) m') :
    m'.Placed Everywhere := by
  cases hin with
  | free hocc ha => exact ha.placed (h.except (h.free trivial hocc)) hx hn ho
  | evict hocc hpte hres hz hid he ha =>
    exact ha.placed (he.placed h hpte) hx hn ⟨ho.heap, ho.brk, ho.pcbs, ho.cur⟩

theorem TableIn.assigned (hin : TableIn m m' x i) : ∃ r, Assigned { m with RAM := r } m' x i := by
  cases hin with
  | free hocc ha => exact ⟨m.RAM, ha⟩
  | evict hocc hpte hres hz hid he ha => exact ⟨_, ha⟩

/-! ### `initialize_PCB` -/

/-- What `initialize_PCB` does to a process without a page table: nothing when no
frame can be had, and otherwise a table, and page 0 if there is a frame for it too. -/
inductive Started (m m' : Mem) (p : Ptr) (x : PCB) : Prop
  | full (hs : scan m.RAM = .nothing) (he : m' = m)
  | tableOnly (i : Fin 32) (hin : TableIn m m' x i)
      (ho : FramesOnly (m.withPcb p { x with frameIndex := i }) m')
      (hs : scan m'.RAM = .nothing)
  | both (i j : Fin 32) (y : PCB) {m₁ : Mem} (hin : TableIn m m₁ x i)
      (ho : FramesOnly (m.withPcb p { x with frameIndex := i }) m₁)
      (hy : y = { x with frameIndex := i } ∨ ∃ t, y = { x with frameIndex := i, unblockAt := t })
      (hpage : PageIn m₁ m' { x with frameIndex := i } 0 j false)
      (ho' : FramesOnly (m.withPcb p y) m')
      (hres : (m'.RAM j).reserved = (m₁.RAM j).reserved)

/-- **`initialize_PCB` succeeds on a live process without a page table.** -/
theorem initializePCB_eq (clk : Clk) (h : m.Placed Everywhere) (hx : m.Live p x)
    (hn : x.frameIndex = -1) :
    ∃ m', m.initializePCB clk p = .ok m' ∧ Started m m' p x := by
  rw [initializePCB, pcb_eq hx.2, Fallible.ok_bind, if_pos hn]
  rcases faultHandler_pageTable clk [] (v := 0) (c := 'r') h hx with
    ⟨hs, he⟩ | ⟨i, m₁, he, ho, hin⟩
  · have hpage : m.faultHandler clk x.id 0 .firstPage [] 'r' = .ok m := by
      rw [faultHandler_other_scan (by simp) h.wf hx, hs]
    exact ⟨m, by rw [he, Fallible.ok_bind, hpage], .full hs rfl⟩
  · have hplaced := hin.placed h hx hn ho
    have hx₁ : m₁.Live p { x with frameIndex := i } := ho.live.mpr (hx.withPcb _)
    obtain ⟨r, ha⟩ := hin.assigned
    rcases faultHandler_firstPage clk [] (c := 'r') hplaced hx₁
      (ha.tableAt (h.limits hx)) with ⟨hs, he'⟩ | ⟨j, y, m', he', hy, ho', hpage, hres⟩
    · exact ⟨m₁, by rw [he, Fallible.ok_bind, he'], .tableOnly i hin ho hs⟩
    · refine ⟨m', by rw [he, Fallible.ok_bind, he'], .both i j y hin ho ?_ hpage ?_ hres⟩
      · rcases hy with rfl | ⟨t, rfl⟩
        · exact Or.inl rfl
        · exact Or.inr ⟨t, rfl⟩
      · have := (ho.withPcb p y).trans ho'
        rwa [withPcb_withPcb] at this

/-- Loading page 0 changes no key. -/
theorem Started.sameProcs {m₁ : Mem} (ho : FramesOnly (m.withPcb p { x with frameIndex := i }) m₁)
    (hy : y = { x with frameIndex := i } ∨ ∃ t, y = { x with frameIndex := i, unblockAt := t })
    (ho' : FramesOnly (m.withPcb p y) m') : SameProcs m₁ m' := by
  have hkey : y.key = ({ x with frameIndex := i } : PCB).key := by
    rcases hy with rfl | ⟨t, rfl⟩ <;> rfl
  have hmid : SameProcs (m.withPcb p { x with frameIndex := i }) (m.withPcb p y) := by
    refine ⟨rfl, fun q => ?_⟩
    by_cases hq : q = p
    · rw [hq, withPcb_heap_self, withPcb_heap_self, Option.map_some, Option.map_some, hkey]
    · rw [withPcb_heap_of_ne hq, withPcb_heap_of_ne hq]
  exact (ho.sameProcs.symm.trans hmid).trans ho'.sameProcs

/-- **Starting a process keeps the placement.** -/
theorem Started.placed (hst : Started m m' p x) (h : m.Placed Everywhere) (hx : m.Live p x)
    (hn : x.frameIndex = -1) : m'.Placed Everywhere := by
  cases hst with
  | full _ he => exact he ▸ h
  | tableOnly i hin ho _ => exact hin.placed h hx hn ho
  | @both i j y m₁ hin ho hy hpage ho' _ =>
    have hplaced := hin.placed h hx hn ho
    have hx₁ : m₁.Live p { x with frameIndex := i } := ho.live.mpr (hx.withPcb _)
    have hsp := Started.sameProcs ho hy ho'
    have hcur : m'.currProcess = m₁.currProcess := ho'.cur.trans ho.cur.symm
    refine hpage.placed hplaced hsp (hsp.cur hcur hplaced.wf) hx₁ ?_ le_rfl ?_
    · change ((i : ℕ) : ℤ) ≠ -1
      omega
    · have := h.limits hx
      change 0 < x.limit
      omega

/-! ### `clear_recent` and `freeReserved` -/

/-- A frame as `clear_recent` leaves it. -/
def cleared (fr : Frame) : Frame :=
  if fr.occupied then
    { fr with R := false, pte := fr.pte.map (List.map fun e => { e with R := false }) }
  else fr

theorem cleared_shape (fr : Frame) : (cleared fr).shape = fr.shape := by
  unfold cleared
  split_ifs
  · simp only [Frame.shape, Prod.mk.injEq, true_and]
    cases fr.pte with
    | none => rfl
    | some pt => simp only [Option.map_some, List.length_map]
  · rfl

@[simp] theorem setFrame_setFrame (m : Mem) (i : Fin 32) (g h : Frame → Frame) :
    (m.setFrame i g).setFrame i h = m.setFrame i fun fr => h (g fr) := by
  simp only [setFrame, Function.update_idem, Function.update_self]

/-- The inner loop of `clear_recent` goes over the whole table: its process has a
limit of as many entries. -/
theorem clearTable_eq {pt : List PTE} (h : m.Placed Everywhere) (hpt : (m.RAM i).pte = some pt) :
    m.clearTable i pt = .ok (m.setFrame i fun fr =>
      { fr with pte := some (pt.map fun e => { e with R := false }) }) := by
  obtain ⟨q, y, hy, hiy⟩ := h.owner trivial hpt
  obtain ⟨pt', hpt', hlen⟩ := hiy.table
  obtain rfl := Option.some.inj (hpt.symm.trans hpt')
  have hlim : y.limit.toNat = pt.length := by omega
  rw [clearTable, hiy.processId]
  simp only [getProcess_live h.wf hy, Fallible.ok_bind, pcb_eq hy.2, hlim, le_refl, if_true,
    List.take_length, List.drop_length, List.append_nil]

/-- **One pass of `clear_recent`.** -/
theorem clearFrame_eq (h : m.Placed Everywhere) (i : Fin 32) :
    m.clearFrame i = .ok (m.setFrame i cleared) := by
  by_cases hocc : (m.RAM i).occupied = true
  · have hi : ((m.setFrame i fun fr => { fr with R := false }).RAM i) =
        { m.RAM i with R := false } := Function.update_self ..
    have honly : FramesOnly m (m.setFrame i fun fr => { fr with R := false }) :=
      ⟨rfl, rfl, rfl, rfl⟩
    have hclear : ∀ g : Frame → Frame, g (m.RAM i) = cleared (m.RAM i) →
        m.setFrame i g = m.setFrame i cleared := fun g hg => by rw [setFrame, hg, setFrame]
    rw [clearFrame, if_pos hocc]
    cases hpte : (m.RAM i).pte with
    | none =>
      simp only [hi, hpte]
      exact congrArg Except.ok (hclear _ (by simp [cleared, hocc, hpte]))
    | some pt =>
      have hplaced : (m.setFrame i fun fr => { fr with R := false }).Placed Everywhere := by
        refine h.congr honly.sameProcs (fun f _ => ?_) fun _ hp => h.wf.cur hp
        rw [setFrame_RAM]
        by_cases hf : f = i
        · rw [hf, Function.update_self]
          rfl
        · rw [Function.update_of_ne hf]
      simp only [hi, hpte]
      rw [clearTable_eq hplaced (by rw [hi, hpte]), setFrame_setFrame]
      exact congrArg Except.ok (hclear _ (by simp [cleared, hocc, hpte]))
  · have hself : cleared (m.RAM i) = m.RAM i := by simp [cleared, hocc]
    rw [clearFrame, if_neg hocc, setFrame, hself, Function.update_eq_self]

/-- **`clear_recent` clears every occupied frame.** -/
theorem clearRecent_eq (h : m.Placed Everywhere) :
    m.clearRecent = .ok { m with RAM := fun i => cleared (m.RAM i) } := by
  have hfold : ∀ (l : List (Fin 32)) (m : Mem), m.Placed Everywhere → l.Nodup →
      l.foldlM clearFrame m =
        .ok { m with RAM := fun i => if i ∈ l then cleared (m.RAM i) else m.RAM i } := by
    intro l
    induction l with
    | nil =>
      intro m _ _
      simp
    | cons j l ih =>
      intro m h hl
      obtain ⟨hj, hl⟩ := List.nodup_cons.mp hl
      have hplaced : (m.setFrame j cleared).Placed Everywhere := by
        refine h.congr (.of_eq rfl rfl) (fun f _ => ?_) fun _ hp => h.wf.cur hp
        rw [setFrame_RAM]
        by_cases hf : f = j
        · rw [hf, Function.update_self, cleared_shape]
        · rw [Function.update_of_ne hf]
      rw [List.foldlM_cons, clearFrame_eq h, Fallible.ok_bind, ih _ hplaced hl]
      refine congrArg (fun r => Except.ok { m with RAM := r }) (funext fun i => ?_)
      rw [setFrame_RAM]
      by_cases hi : i = j
      · subst hi
        rw [if_neg hj, Function.update_self, if_pos List.mem_cons_self]
      · simp only [Function.update_of_ne hi, List.mem_cons, hi, false_or]
  rw [clearRecent, hfold _ m h (List.nodup_finRange 32)]
  simp only [List.mem_finRange, if_true]

theorem clearRecent_placed (h : m.Placed Everywhere) :
    ({ m with RAM := fun i => cleared (m.RAM i) } : Mem).Placed Everywhere :=
  h.congr (.of_eq rfl rfl) (fun _ _ => cleared_shape _) fun _ hp => h.wf.cur hp

theorem freeReserved_eq_ok {j : ℤ} (h : m.freeReserved j = .ok m') :
    ∃ i : Fin 32, j = i ∧ m' = m.setFrame i fun fr => { fr with reserved := false } := by
  obtain ⟨i, hi, h⟩ := Fallible.bind_eq_ok.mp h
  exact ⟨i, frameAt_eq_ok.mp hi, (Except.ok.inj h).symm⟩

theorem unreserve_shape (m : Mem) (i f : Fin 32) :
    ((m.setFrame i fun fr => { fr with reserved := false }).RAM f).shape = (m.RAM f).shape := by
  rw [setFrame_RAM]
  by_cases hf : f = i
  · rw [hf, Function.update_self]
    rfl
  · rw [Function.update_of_ne hf]

/-! ### The release of a finished process -/

/-- Ids tell the live processes apart. -/
theorem Wf.idOf_inj (hw : m.Wf) (hx : m.Live p x) :
    ∀ q ∈ m.currentPCBs, ∃ i, m.idOf q = .ok i ∧ (i = x.id → q = p) := by
  intro q hq
  obtain ⟨y, hy⟩ := hw.alloc hq
  exact ⟨y.id, idOf_eq hy, fun hid => hw.ids ⟨hq, hy⟩ hx hid⟩

/-- **The end of `handleFinishedProcesses`** lets go of the process it was called
for, and of no other. -/
theorem release_eq (hw : m.Wf) (hx : m.Live p x) (hf : m.TableAt x f) :
    ∃ m', m.release p = .ok m' ∧ Finished m m' p x ∧
      m'.currentPCBs = m.currentPCBs.erase p ∧ m'.brk = m.brk := by
  have htake := Queue.dequeueById_self (hw.idOf_inj hx) hx.1 (idOf_eq hx.2)
  let m₁ : Mem := { m with currentPCBs := m.currentPCBs.erase p }
  have hfree : m₁.freePageTable x = .ok { m₁ with
      RAM := fun i => if i = f ∨ (m.RAM i).processId = x.id then Frame.free else m.RAM i } :=
    freePageTable_eq hf.index
  refine ⟨{ m₁ with
      RAM := fun i => if i = f ∨ (m.RAM i).processId = x.id then Frame.free else m.RAM i
      heap := Function.update m.heap p none
      currProcess := none }, ?_, ⟨fun q => ?_, ?_, rfl, fun i => ?_, rfl⟩, rfl, rfl⟩
  · rw [release, pcb_eq hx.2, Fallible.ok_bind, htake, Fallible.ok_bind]
    exact (congrArg (· >>= fun m₂ : Mem =>
      Except.ok { m₂ with heap := Function.update m₂.heap p none, currProcess := none })
      hfree).trans rfl
  · rw [hw.nodup.mem_erase_iff, and_comm]
  · exact hw.nodup.erase p
  · by_cases hi : i = f
    · simp only [hi, hf.processId, true_or, if_true]
    · simp only [hi, false_or]

end Mem

end CpuScheduler
