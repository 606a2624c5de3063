import CpuScheduler.Mmu.Lookup

/-!
# Where page tables are, and whose pages the frames hold

The coarse half of the consistency of the MMU: `CpuScheduler.Mem.Placed` says that
`frame_index` and the `pte` pointers of the frame table describe the same
assignment of page tables to processes, that each table has `limit` entries, and
that a frame with a page holds a page *inside* its owner's table. Which entry points
to which frame is left to `CpuScheduler.Mmu.Consistency`.

An eviction and a release pass through a moment in which one frame is between two
owners. So the invariant is stated over the frames of a predicate `on`: it holds on
all frames between operations, and on all frames but one while that one is refilled
(`CpuScheduler.Mem.Placed.except`, `CpuScheduler.Mem.Placed.fill`,
`CpuScheduler.Mem.Placed.assign`).

Most operations change neither the ids, limits and `frame_index`es of the processes
nor the shape of a frame; for those there is one lemma,
`CpuScheduler.Mem.Placed.congr`.
-/

namespace CpuScheduler

/-- What the placement of the page tables reads of a PCB. -/
def PCB.key (x : PCB) : ℤ × ℤ × ℤ := (x.id, x.limit, x.frameIndex)

/-- What the placement of the page tables reads of a frame. -/
def Frame.shape (fr : Frame) : Bool × ℤ × ℤ × Option ℕ :=
  (fr.occupied, fr.processId, fr.vpage, fr.pte.map List.length)

theorem Frame.shape_eq {fr fr' : Frame} (h : fr.shape = fr'.shape) :
    fr.occupied = fr'.occupied ∧ fr.processId = fr'.processId ∧ fr.vpage = fr'.vpage ∧
      fr.pte.map List.length = fr'.pte.map List.length := by
  simpa only [Frame.shape, Prod.mk.injEq] using h

namespace Mem

variable {m m' : Mem} {p q : Ptr} {x y : PCB} {on : Fin 32 → Prop} {f i : Fin 32}

/-- The frame `f` holds the page table of the process `x`. -/
structure TableAt (m : Mem) (x : PCB) (f : Fin 32) : Prop where
  index : x.frameIndex = f
  occupied : (m.RAM f).occupied = true
  processId : (m.RAM f).processId = x.id
  table : ∃ pt, (m.RAM f).pte = some pt ∧ (pt.length : ℤ) = x.limit

/-- The frame `i` holds page `v` of the process with the given id. -/
structure PageAt (m : Mem) (id v : ℤ) (i : Fin 32) : Prop where
  occupied : (m.RAM i).occupied = true
  page : (m.RAM i).pte = none
  processId : (m.RAM i).processId = id
  vpage : (m.RAM i).vpage = v

/-- **The frames in `on` are placed**: each table belongs to one live process, and
each page lies in the table of a live process. -/
structure Placed (m : Mem) (on : Fin 32 → Prop) : Prop where
  wf : m.Wf
  limits : ∀ {p x}, m.Live p x → 1 ≤ x.limit
  table : ∀ {p x}, m.Live p x → x.frameIndex = -1 ∨ ∃ f, on f ∧ m.TableAt x f
  owner : ∀ {f pt}, on f → (m.RAM f).pte = some pt → ∃ p x, m.Live p x ∧ m.TableAt x f
  inside : ∀ {i}, on i → (m.RAM i).occupied = true → (m.RAM i).pte = none →
    ∃ p x, m.Live p x ∧ (m.RAM i).processId = x.id ∧ x.frameIndex ≠ -1 ∧
      0 ≤ (m.RAM i).vpage ∧ (m.RAM i).vpage < x.limit
  free : ∀ {f}, on f → (m.RAM f).occupied = false → (m.RAM f).pte = none

/-- All frames. -/
def Everywhere : Fin 32 → Prop := fun _ => True

/-! ### Reading the invariant -/

theorem TableAt.ne_neg_one (h : m.TableAt x f) : x.frameIndex ≠ -1 := by
  have := h.index
  omega

theorem TableAt.pte_ne_none (h : m.TableAt x f) : (m.RAM f).pte ≠ none := by
  obtain ⟨pt, hpt, -⟩ := h.table
  rw [hpt]
  exact Option.some_ne_none pt

/-- A process with a page table has it where `frame_index` says. -/
theorem Placed.tableAt (h : m.Placed on) (hx : m.Live p x) (hf : x.frameIndex ≠ -1) :
    ∃ f, on f ∧ m.TableAt x f := (h.table hx).resolve_left hf

/-- Two processes do not share a table. -/
theorem Placed.tableAt_inj (h : m.Placed on) (hx : m.Live p x) (hy : m.Live q y)
    (hfx : m.TableAt x f) (hfy : m.TableAt y f) : p = q :=
  h.wf.ids hx hy (hfx.processId.symm.trans hfy.processId)

theorem TableAt.entryOf_some {v : ℤ} (hf : m.TableAt x f) (h0 : 0 ≤ v) (hv : v < x.limit) :
    ∃ pt e, (m.RAM f).pte = some pt ∧ entryOf pt v = some e := by
  obtain ⟨pt, hpt, hlen⟩ := hf.table
  obtain ⟨e, he⟩ := entryOf_isSome.mpr ⟨h0, hlen ▸ hv⟩
  exact ⟨pt, e, hpt, he⟩

/-- A page inside the table has an entry. -/
theorem TableAt.entry_some {v : ℤ} (hf : m.TableAt x f) (h0 : 0 ≤ v) (hv : v < x.limit) :
    ∃ e, m.entry x v = some e := by
  obtain ⟨pt, e, hpt, he⟩ := hf.entryOf_some h0 hv
  exact ⟨e, by rw [entry_eq hf.index hpt, he]⟩

/-! ### Changes that leave the placement alone -/

/-- The two states have the same live processes, with the same ids, limits and
`frame_index`es. -/
structure SameProcs (m m' : Mem) : Prop where
  pcbs : m'.currentPCBs = m.currentPCBs
  keys : ∀ p, (m'.heap p).map PCB.key = (m.heap p).map PCB.key

theorem SameProcs.refl (m : Mem) : SameProcs m m := ⟨rfl, fun _ => rfl⟩

theorem SameProcs.trans {m₁ m₂ m₃ : Mem} (h : SameProcs m₁ m₂) (h' : SameProcs m₂ m₃) :
    SameProcs m₁ m₃ :=
  ⟨h'.pcbs.trans h.pcbs, fun p => (h'.keys p).trans (h.keys p)⟩

theorem SameProcs.symm (h : SameProcs m m') : SameProcs m' m :=
  ⟨h.pcbs.symm, fun p => (h.keys p).symm⟩

theorem SameProcs.of_eq (hl : m'.currentPCBs = m.currentPCBs) (hh : m'.heap = m.heap) :
    SameProcs m m' := ⟨hl, fun _ => by rw [hh]⟩

/-- A write to a PCB that keeps its id, limit and `frame_index`. -/
theorem SameProcs.of_update {g : PCB → PCB} (hx : m.heap p = some x)
    (hg : (g x).key = x.key) (hl : m'.currentPCBs = m.currentPCBs)
    (hh : m'.heap = Function.update m.heap p (some (g x))) : SameProcs m m' := by
  refine ⟨hl, fun q => ?_⟩
  rw [hh]
  by_cases hq : q = p
  · rw [hq, Function.update_self, hx, Option.map_some, Option.map_some, hg]
  · rw [Function.update_of_ne hq]

/-- A live process of the one state is a live process of the other. -/
theorem SameProcs.live (h : SameProcs m m') (hx : m'.Live p x) :
    ∃ y, m.Live p y ∧ y.id = x.id ∧ y.limit = x.limit ∧ y.frameIndex = x.frameIndex := by
  have hk := h.keys p
  rw [hx.2, Option.map_some] at hk
  obtain ⟨y, hy, hkey⟩ := Option.map_eq_some_iff.mp hk.symm
  simp only [PCB.key, Prod.mk.injEq] at hkey
  exact ⟨y, ⟨h.pcbs ▸ hx.1, hy⟩, hkey⟩

theorem SameProcs.wf (h : SameProcs m m') (hw : m.Wf)
    (hcur : ∀ p, m'.currProcess = some p → p ∈ m'.currentPCBs) : m'.Wf where
  nodup := h.pcbs ▸ hw.nodup
  alloc hp := by
    rename_i p
    obtain ⟨x, hx⟩ := hw.alloc (h.pcbs ▸ hp)
    obtain ⟨y, hy, -⟩ := h.symm.live ⟨h.pcbs ▸ hp, hx⟩
    exact ⟨y, hy.2⟩
  cur hp := hcur _ hp
  ids hx hy hid := by
    obtain ⟨x', hx', hidx, -⟩ := h.live hx
    obtain ⟨y', hy', hidy, -⟩ := h.live hy
    exact hw.ids hx' hy' (by rw [hidx, hidy, hid])

/-- A frame with the shape of a frame that holds a table holds a table. -/
theorem TableAt.congr (hf : m.TableAt x f) (hs : (m'.RAM f).shape = (m.RAM f).shape)
    (hid : y.id = x.id) (hlim : y.limit = x.limit) (hidx : y.frameIndex = x.frameIndex) :
    m'.TableAt y f := by
  obtain ⟨hocc, hpid, -, hpte⟩ := Frame.shape_eq hs
  obtain ⟨pt, hpt, hlen⟩ := hf.table
  rw [hpt, Option.map_some] at hpte
  obtain ⟨pt', hpt', hlen'⟩ := Option.map_eq_some_iff.mp hpte
  exact ⟨hidx.trans hf.index, hocc.trans hf.occupied, by rw [hpid, hf.processId, hid],
    pt', hpt', by rw [hlen', hlen, hlim]⟩

theorem shape_pte_none (hs : (m'.RAM i).shape = (m.RAM i).shape) :
    (m'.RAM i).pte = none ↔ (m.RAM i).pte = none := by
  rw [← Option.map_eq_none_iff (f := List.length), (Frame.shape_eq hs).2.2.2,
    Option.map_eq_none_iff]

/-- The clauses of the invariant that speak of one frame carry over to a frame of
the same shape. -/
theorem Placed.owner_congr (h : m.Placed on) (hp : SameProcs m m') (hf : on f)
    (hs : (m'.RAM f).shape = (m.RAM f).shape) {pt : List PTE} (hpt : (m'.RAM f).pte = some pt) :
    ∃ p x, m'.Live p x ∧ m'.TableAt x f := by
  have hne : (m.RAM f).pte ≠ none := by
    intro hn
    rw [(shape_pte_none hs).mpr hn] at hpt
    exact nomatch hpt
  obtain ⟨pt', hpt'⟩ := Option.ne_none_iff_exists'.mp hne
  obtain ⟨p, x, hx, hfx⟩ := h.owner hf hpt'
  obtain ⟨y, hy, hid, hlim, hidx⟩ := hp.symm.live hx
  exact ⟨p, y, hy, hfx.congr hs hid hlim hidx⟩

theorem Placed.inside_congr (h : m.Placed on) (hp : SameProcs m m') (hi : on i)
    (hs : (m'.RAM i).shape = (m.RAM i).shape) (hocc : (m'.RAM i).occupied = true)
    (hpte : (m'.RAM i).pte = none) :
    ∃ p x, m'.Live p x ∧ (m'.RAM i).processId = x.id ∧ x.frameIndex ≠ -1 ∧
      0 ≤ (m'.RAM i).vpage ∧ (m'.RAM i).vpage < x.limit := by
  have hpte' := (shape_pte_none hs).mp hpte
  obtain ⟨hocc', hpid, hv, -⟩ := Frame.shape_eq hs
  obtain ⟨p, x, hx, hid, hfx, h0, hlt⟩ := h.inside hi (hocc'.symm.trans hocc) hpte'
  obtain ⟨y, hy, hidy, hlim, hidx⟩ := hp.symm.live hx
  exact ⟨p, y, hy, by rw [hpid, hid, hidy], by rw [hidx]; exact hfx, by rw [hv]; exact h0,
    by rw [hv, hlim]; exact hlt⟩

/-- **A change that keeps the processes and the shapes of the frames keeps the
placement.** -/
theorem Placed.congr (h : m.Placed on) (hp : SameProcs m m')
    (hs : ∀ i, on i → (m'.RAM i).shape = (m.RAM i).shape)
    (hcur : ∀ p, m'.currProcess = some p → p ∈ m'.currentPCBs) : m'.Placed on where
  wf := hp.wf h.wf hcur
  limits hx := by
    obtain ⟨y, hy, -, hlim, -⟩ := hp.live hx
    exact hlim ▸ h.limits hy
  table hx := by
    obtain ⟨y, hy, hid, hlim, hidx⟩ := hp.live hx
    rcases h.table hy with hn | ⟨f, hf, hfy⟩
    · exact Or.inl (hidx ▸ hn)
    · exact Or.inr ⟨f, hf, hfy.congr (hs f hf) hid.symm hlim.symm hidx.symm⟩
  owner hf hpt := h.owner_congr hp hf (hs _ hf) hpt
  inside hi hocc hpte := h.inside_congr hp hi (hs _ hi) hocc hpte
  free hf hocc := by
    refine (shape_pte_none (hs _ hf)).mpr (h.free hf ?_)
    rw [← (Frame.shape_eq (hs _ hf)).1, hocc]

theorem SameProcs.cur (hp : SameProcs m m') (hc : m'.currProcess = m.currProcess) (hw : m.Wf) :
    ∀ p, m'.currProcess = some p → p ∈ m'.currentPCBs := by
  intro p h
  rw [hp.pcbs]
  exact hw.cur (hc ▸ h)

/-! ### A frame between two owners -/

/-- **Taking a frame that holds no table out of consideration.** -/
theorem Placed.except (h : m.Placed Everywhere) (hi : (m.RAM i).pte = none) :
    m.Placed (· ≠ i) where
  wf := h.wf
  limits := h.limits
  table hx := by
    rcases h.table hx with hn | ⟨f, -, hf⟩
    · exact Or.inl hn
    · refine Or.inr ⟨f, ?_, hf⟩
      rintro rfl
      exact hf.pte_ne_none hi
  owner _ hpt := h.owner trivial hpt
  inside _ hocc hpte := h.inside trivial hocc hpte
  free _ hocc := h.free trivial hocc

/-- **Filling the frame with a page of a live process.** -/
theorem Placed.fill {v : ℤ} (h : m.Placed (· ≠ i)) (hp : SameProcs m m')
    (hs : ∀ f, f ≠ i → (m'.RAM f).shape = (m.RAM f).shape)
    (hcur : ∀ p, m'.currProcess = some p → p ∈ m'.currentPCBs)
    (hx : m.Live p x) (hf : x.frameIndex ≠ -1) (h0 : 0 ≤ v) (hv : v < x.limit)
    (hi : m'.PageAt x.id v i) : m'.Placed Everywhere := by
  have hoff : m'.Placed (· ≠ i) := h.congr hp hs hcur
  refine ⟨hoff.wf, hoff.limits, fun hy => ?_, fun {f} pt _ hpt => ?_, fun {j} _ hocc hpte => ?_,
    fun {f} _ hocc => ?_⟩
  · exact (hoff.table hy).imp_right fun ⟨f, _, hf⟩ => ⟨f, trivial, hf⟩
  · refine hoff.owner ?_ hpt
    rintro rfl
    rw [hi.page] at hpt
    exact nomatch hpt
  · by_cases hj : j = i
    · obtain ⟨y, hy, hid, hlim, hidx⟩ := hp.symm.live hx
      subst hj
      exact ⟨p, y, hy, hi.processId.trans hid.symm, by rw [hidx]; exact hf,
        by rw [hi.vpage]; exact h0, by rw [hi.vpage, hlim]; exact hv⟩
    · exact hoff.inside hj hocc hpte
  · by_cases hf' : f = i
    · rw [hf', hi.page]
    · exact hoff.free hf' hocc

/-- **Filling the frame with the page table of a live process that has none.** -/
theorem Placed.assign (h : m.Placed (· ≠ i)) (hx : m.Live p x) (hn : x.frameIndex = -1)
    (hl : m'.currentPCBs = m.currentPCBs) (hc : m'.currProcess = m.currProcess)
    (hh : m'.heap = Function.update m.heap p (some { x with frameIndex := i }))
    (hr : ∀ f, f ≠ i → m'.RAM f = m.RAM f)
    (ht : m'.TableAt { x with frameIndex := i } i) : m'.Placed Everywhere := by
  have hself : m'.Live p { x with frameIndex := i } :=
    ⟨hl ▸ hx.1, by rw [hh, Function.update_self]⟩
  have hother : ∀ {q y}, q ≠ p → (m'.Live q y ↔ m.Live q y) := by
    intro q y hq
    rw [Live, Live, hl, hh, Function.update_of_ne hq]
  have hlive : ∀ {q y}, m'.Live q y → ∃ y', m.Live q y' ∧ y'.id = y.id ∧ y'.limit = y.limit := by
    intro q y hy
    by_cases hq : q = p
    · subst hq
      exact ⟨x, hx, by rw [hy.unique hself], by rw [hy.unique hself]⟩
    · exact ⟨y, (hother hq).mp hy, rfl, rfl⟩
  have hback : ∀ {q y f}, f ≠ i → m.Live q y → m.TableAt y f → m'.Live q y ∧ m'.TableAt y f := by
    intro q y f hf hy hfy
    have hq : q ≠ p := by
      rintro rfl
      exact hfy.ne_neg_one ((hy.unique hx) ▸ hn)
    exact ⟨(hother hq).mpr hy, hfy.congr (by rw [hr f hf]) rfl rfl rfl⟩
  refine ⟨⟨hl ▸ h.wf.nodup, fun {q} hq => ?_, fun {q} hq => ?_, fun hy hz hid => ?_⟩,
    fun hy => ?_, fun {q y} hy => ?_, fun {f} pt _ hpt => ?_, fun {j} _ hocc hpte => ?_,
      fun {f} _ hocc => ?_⟩
  · by_cases hqp : q = p
    · exact ⟨_, hqp ▸ hself.2⟩
    · obtain ⟨y, hy⟩ := h.wf.alloc (hl ▸ hq)
      exact ⟨y, ((hother hqp).mpr ⟨hl ▸ hq, hy⟩).2⟩
  · rw [hl]
    exact h.wf.cur (hc ▸ hq)
  · obtain ⟨y', hy', hidy, -⟩ := hlive hy
    obtain ⟨z', hz', hidz, -⟩ := hlive hz
    exact h.wf.ids hy' hz' (by rw [hidy, hidz, hid])
  · obtain ⟨y', hy', -, hlim⟩ := hlive hy
    exact hlim ▸ h.limits hy'
  · by_cases hq : q = p
    · subst hq
      exact Or.inr ⟨i, trivial, (hy.unique hself) ▸ ht⟩
    · refine (h.table ((hother hq).mp hy)).imp_right fun ⟨f, hf, hfy⟩ => ⟨f, trivial, ?_⟩
      exact (hback hf ((hother hq).mp hy) hfy).2
  · by_cases hf : f = i
    · exact ⟨p, _, hself, hf ▸ ht⟩
    · rw [hr f hf] at hpt
      obtain ⟨q, y, hy, hfy⟩ := h.owner hf hpt
      obtain ⟨hy', hfy'⟩ := hback hf hy hfy
      exact ⟨q, y, hy', hfy'⟩
  · have hj : j ≠ i := by
      rintro rfl
      exact ht.pte_ne_none hpte
    rw [hr j hj] at hocc hpte ⊢
    obtain ⟨q, y, hy, hid, hfy, h0, hlt⟩ := h.inside hj hocc hpte
    have hq : q ≠ p := by
      rintro rfl
      exact hfy ((hy.unique hx) ▸ hn)
    exact ⟨q, y, (hother hq).mpr hy, hid, hfy, h0, hlt⟩
  · have hf : f ≠ i := by
      rintro rfl
      rw [ht.occupied] at hocc
      exact nomatch hocc
    rw [hr f hf] at hocc ⊢
    exact h.free hf hocc

/-! ### Processes that come and go -/

/-- `receiveProcesses` on one process: allocate its PCB and put it in `currentPCBs`. -/
def create (m : Mem) (d : ProcessData) : Mem :=
  { m with
    heap := Function.update m.heap m.brk (some (createPCB d))
    brk := m.brk + 1
    currentPCBs := Queue.enqueue m.currentPCBs m.brk }

/-- No pointer from `brk` on has been handed out. -/
def Fresh (m : Mem) : Prop := ∀ p, m.brk ≤ p → m.heap p = none

theorem Fresh.not_mem (h : m.Fresh) (hw : m.Wf) : m.brk ∉ m.currentPCBs := by
  intro hb
  obtain ⟨x, hx⟩ := hw.alloc hb
  rw [h m.brk le_rfl] at hx
  exact nomatch hx

theorem live_create (hfresh : m.Fresh) (hw : m.Wf) {d : ProcessData} :
    (m.create d).Live q y ↔ m.Live q y ∨ (q = m.brk ∧ y = createPCB d) := by
  have hnew : (m.create d).heap m.brk = some (createPCB d) := Function.update_self ..
  have hold : q ≠ m.brk → (m.create d).heap q = m.heap q := fun hq => Function.update_of_ne hq ..
  constructor
  · rintro ⟨hq, hy⟩
    by_cases hqb : q = m.brk
    · subst hqb
      exact Or.inr ⟨rfl, Option.some.inj (hy.symm.trans hnew)⟩
    · refine Or.inl ⟨?_, (hold hqb) ▸ hy⟩
      exact (Queue.mem_enqueue.mp hq).resolve_right hqb
  · rintro (hy | ⟨rfl, rfl⟩)
    · have hqb : q ≠ m.brk := by
        rintro rfl
        exact hfresh.not_mem hw hy.1
      exact ⟨Queue.mem_enqueue.mpr (Or.inl hy.1), (hold hqb).trans hy.2⟩
    · exact ⟨Queue.mem_enqueue.mpr (Or.inr rfl), hnew⟩

theorem Fresh.create (h : m.Fresh) (d : ProcessData) : (m.create d).Fresh := by
  intro p hp
  have hlt : m.brk < p := Nat.lt_of_succ_le hp
  exact (Function.update_of_ne (Nat.ne_of_gt hlt) ..).trans (h p (Nat.le_of_lt hlt))

/-- **Receiving a process with a new id keeps the placement.** -/
theorem Placed.create (h : m.Placed on) (hfresh : m.Fresh) {d : ProcessData}
    (hlim : 1 ≤ d.limit) (hid : ∀ p x, m.Live p x → x.id ≠ d.id) :
    (m.create d).Placed on := by
  have hl : ∀ {q y}, (m.create d).Live q y ↔ m.Live q y ∨ (q = m.brk ∧ y = createPCB d) :=
    live_create hfresh h.wf
  have ht : ∀ {y f}, m.TableAt y f → (m.create d).TableAt y f := fun hf =>
    ⟨hf.index, hf.occupied, hf.processId, hf.table⟩
  refine ⟨⟨?_, fun {q} hq => ?_, fun {q} hq => ?_, fun {q r y z} hy hz he => ?_⟩, fun hy => ?_,
    fun hy => ?_, fun hf hpt => ?_, fun hi hocc hpte => ?_, fun hf hocc => h.free hf hocc⟩
  · exact ((Queue.perm_enqueue _ _).nodup_iff).mpr
      (List.nodup_cons.mpr ⟨hfresh.not_mem h.wf, h.wf.nodup⟩)
  · rcases Queue.mem_enqueue.mp hq with hq | rfl
    · obtain ⟨y, hy⟩ := h.wf.alloc hq
      exact ⟨y, (hl.mpr (Or.inl ⟨hq, hy⟩)).2⟩
    · exact ⟨_, (hl.mpr (Or.inr ⟨rfl, rfl⟩)).2⟩
  · exact Queue.mem_enqueue.mpr (Or.inl (h.wf.cur hq))
  · rcases hl.mp hy with hy | ⟨rfl, rfl⟩ <;> rcases hl.mp hz with hz | ⟨rfl, rfl⟩
    · exact h.wf.ids hy hz he
    · exact absurd he (hid q y hy)
    · exact absurd he.symm (hid r z hz)
    · rfl
  · rcases hl.mp hy with hy | ⟨rfl, rfl⟩
    · exact h.limits hy
    · exact hlim
  · rcases hl.mp hy with hy | ⟨rfl, rfl⟩
    · exact (h.table hy).imp_right fun ⟨f, hf, hfy⟩ => ⟨f, hf, ht hfy⟩
    · exact Or.inl rfl
  · obtain ⟨q, y, hy, hfy⟩ := h.owner hf hpt
    exact ⟨q, y, hl.mpr (Or.inl hy), ht hfy⟩
  · obtain ⟨q, y, hy, hrest⟩ := h.inside hi hocc hpte
    exact ⟨q, y, hl.mpr (Or.inl hy), hrest⟩

/-- What `freePageTable` does to the frame table. -/
theorem freePageTable_eq (hf : x.frameIndex = f) :
    m.freePageTable x = .ok { m with
      RAM := fun i => if i = f ∨ (m.RAM i).processId = x.id then Frame.free else m.RAM i } := by
  rw [freePageTable, hf, frameAt_coe, Fallible.ok_bind]
  refine congrArg (fun r => Except.ok { m with RAM := r }) (funext fun i => ?_)
  by_cases hi : i = f
  · rw [hi, setFrame_RAM, Function.update_self, if_pos (Or.inl rfl), ite_self]
  · simp only [setFrame_RAM, Function.update_of_ne hi, hi, false_or]

/-- The state after `handleFinishedProcesses` has let go of the process `p`. -/
structure Finished (m m' : Mem) (p : Ptr) (x : PCB) : Prop where
  pcbs : ∀ q, q ∈ m'.currentPCBs ↔ q ∈ m.currentPCBs ∧ q ≠ p
  nodup : m'.currentPCBs.Nodup
  heap : m'.heap = Function.update m.heap p none
  RAM : ∀ i, m'.RAM i = if (m.RAM i).processId = x.id then Frame.free else m.RAM i
  cur : m'.currProcess = none

theorem Finished.live (h : Finished m m' p x) : m'.Live q y ↔ m.Live q y ∧ q ≠ p := by
  by_cases hq : q = p
  · rw [Live, h.pcbs]
    exact ⟨fun hl => absurd hq hl.1.2, fun hl => absurd hq hl.2⟩
  · rw [Live, Live, h.pcbs, h.heap, Function.update_of_ne hq]
    exact ⟨fun hl => ⟨⟨hl.1.1, hl.2⟩, hq⟩, fun hl => ⟨⟨hl.1.1, hq⟩, hl.1.2⟩⟩

theorem Finished.wf (h : Finished m m' p x) (hw : m.Wf) : m'.Wf where
  nodup := h.nodup
  alloc hq := by
    obtain ⟨hq, hne⟩ := (h.pcbs _).mp hq
    obtain ⟨y, hy⟩ := hw.alloc hq
    exact ⟨y, (h.live.mpr ⟨⟨hq, hy⟩, hne⟩).2⟩
  cur hq := nomatch h.cur.symm.trans hq
  ids hy hz hid := hw.ids (h.live.mp hy).1 (h.live.mp hz).1 hid

/-- A frame that belongs to another process is not released. -/
theorem Finished.RAM_of_ne (h : Finished m m' p x) (hi : (m.RAM i).processId ≠ x.id) :
    m'.RAM i = m.RAM i := by rw [h.RAM, if_neg hi]

/-- A frame that is not free after the release belongs to another process. -/
theorem Finished.ne_of_occupied (h : Finished m m' p x) (hi : (m'.RAM i).occupied = true) :
    (m.RAM i).processId ≠ x.id := by
  intro hid
  rw [h.RAM, if_pos hid] at hi
  exact nomatch hi

theorem TableAt.congr_frame (hf : m.TableAt x f) (hr : m'.RAM f = m.RAM f) : m'.TableAt x f :=
  hf.congr (by rw [hr]) rfl rfl rfl

/-- **Finishing a process keeps the placement.** -/
theorem Placed.finish (h : m.Placed Everywhere) (hx : m.Live p x) (hfin : Finished m m' p x) :
    m'.Placed Everywhere := by
  have hid : ∀ {q y}, m.Live q y → q ≠ p → y.id ≠ x.id := fun hy hq he => hq (h.wf.ids hy hx he)
  refine ⟨hfin.wf h.wf, fun hy => h.limits (hfin.live.mp hy).1, fun hy => ?_,
    fun {f} pt _ hpt => ?_, fun {i} _ hocc hpte => ?_, fun {f} _ hocc => ?_⟩
  · obtain ⟨hy, hq⟩ := hfin.live.mp hy
    refine (h.table hy).imp_right fun ⟨f, _, hf⟩ => ⟨f, trivial, hf.congr_frame ?_⟩
    exact hfin.RAM_of_ne (hf.processId ▸ hid hy hq)
  · have hne : (m.RAM f).processId ≠ x.id := by
      intro hc
      rw [hfin.RAM, if_pos hc] at hpt
      exact nomatch hpt
    rw [hfin.RAM_of_ne hne] at hpt
    obtain ⟨q, y, hy, hf⟩ := h.owner trivial hpt
    have hq : q ≠ p := by
      rintro rfl
      exact hne (hy.unique hx ▸ hf.processId)
    exact ⟨q, y, hfin.live.mpr ⟨hy, hq⟩, hf.congr_frame (hfin.RAM_of_ne hne)⟩
  · have hne := hfin.ne_of_occupied hocc
    rw [hfin.RAM_of_ne hne] at hocc hpte ⊢
    obtain ⟨q, y, hy, hidy, hrest⟩ := h.inside trivial hocc hpte
    have hq : q ≠ p := by
      rintro rfl
      exact hne (hy.unique hx ▸ hidy)
    exact ⟨q, y, hfin.live.mpr ⟨hy, hq⟩, hidy, hrest⟩
  · by_cases hc : (m.RAM f).processId = x.id
    · rw [hfin.RAM, if_pos hc]
      rfl
    · rw [hfin.RAM_of_ne hc] at hocc ⊢
      exact h.free trivial hocc

end Mem

end CpuScheduler
