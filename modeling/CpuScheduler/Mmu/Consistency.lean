import CpuScheduler.Mmu.Upkeep

/-!
# The frame table and the page tables agree

The MMU keeps the same assignment twice. A page table entry names the frame its page
is in; a frame names the process and the page it holds. Both carry an `R` and an `M`
bit. `CpuScheduler.Mem.Consistent` says that the two copies describe one bijection
between the valid entries and the frames that hold pages, and agree on the bits.

The invariant extends `CpuScheduler.Mem.Placed` and, like it, is stated over the
frames of a predicate, so that the frame in the middle of a replacement can be left
out (`CpuScheduler.Mem.AgreeOn`). Every operation is then a small step: a page is
taken out (`CpuScheduler.Mem.Evicted.agree`), a page or a table is put in
(`CpuScheduler.Mem.Loaded.agree`, `CpuScheduler.Mem.Assigned.agree`), bits change on
both sides at once, or a process takes all it owns with it.
-/

namespace CpuScheduler

namespace Mem

variable {m m' : Mem} {p q : Ptr} {x y z : PCB} {f i : Fin 32} {v u : ℤ} {c : Char} {clk : Clk}
  {on : Fin 32 → Prop}

/-- **The frames in `on` agree with the page tables.** -/
structure AgreeOn (m : Mem) (on : Fin 32 → Prop) : Prop extends m.Placed on where
  valid : ∀ {p x v e}, m.Live p x → m.entry x v = some e → e.valid = true →
    ∃ i, on i ∧ e.frameAddress = ((i : ℕ) : ℤ) ∧ m.PageAt x.id v i ∧ (m.RAM i).R = e.R ∧
      (m.RAM i).M = e.M
  held : ∀ {i p x}, on i → (m.RAM i).occupied = true → (m.RAM i).pte = none → m.Live p x →
    (m.RAM i).processId = x.id →
    ∃ e, m.entry x (m.RAM i).vpage = some e ∧ e.valid = true ∧ e.frameAddress = ((i : ℕ) : ℤ)
  clean : ∀ {f}, on f → (m.RAM f).occupied = false →
    (m.RAM f).R = false ∧ (m.RAM f).M = false ∧ (m.RAM f).reserved = false

/-- **The state of the MMU is consistent.** -/
def Consistent (m : Mem) : Prop := m.AgreeOn Everywhere

/-! ### Changes that leave the agreement alone -/

theorem PageAt.congr {id : ℤ} (h : m.PageAt id v i) (hs : (m'.RAM i).shape = (m.RAM i).shape) :
    m'.PageAt id v i := by
  obtain ⟨hocc, hpid, hv, -⟩ := Frame.shape_eq hs
  exact ⟨hocc.trans h.occupied, (shape_pte_none hs).mpr h.page, hpid.trans h.processId,
    hv.trans h.vpage⟩

/-- A process without a page table has no entries. -/
theorem entry_of_none (h : x.frameIndex = -1) (v : ℤ) : m.entry x v = none := by
  rw [entry, tableOf, dif_neg (by omega), Option.bind_none]

/-- An entry that can be read lies in a table, within its limit. -/
theorem Placed.entry_bounds {e : PTE} (h : m.Placed on) (hx : m.Live p x)
    (he : m.entry x v = some e) : ∃ f, on f ∧ m.TableAt x f ∧ 0 ≤ v ∧ v < x.limit := by
  rcases h.table hx with hn | ⟨f, hf, hxf⟩
  · rw [entry_of_none hn] at he
    exact nomatch he
  · obtain ⟨g, pt, hg, hpt, he⟩ := entry_eq_some he
    obtain rfl := coe_inj (hxf.index.symm.trans hg)
    obtain ⟨pt', hpt', hlen⟩ := hxf.table
    obtain rfl := Option.some.inj (hpt.symm.trans hpt')
    obtain ⟨h0, hv⟩ := entryOf_isSome.mp ⟨e, he⟩
    exact ⟨f, hf, hxf, h0, hlen ▸ hv⟩

/-- **A change that keeps the processes, the shapes, the entries and the bits keeps the
agreement.** A frame may lose its reservation. -/
theorem AgreeOn.congr (h : m.AgreeOn on) (hp : SameProcs m m')
    (hcur : ∀ p, m'.currProcess = some p → p ∈ m'.currentPCBs)
    (hs : ∀ i, on i → (m'.RAM i).shape = (m.RAM i).shape)
    (hR : ∀ i, on i → (m'.RAM i).R = (m.RAM i).R) (hM : ∀ i, on i → (m'.RAM i).M = (m.RAM i).M)
    (hres : ∀ i, on i → (m'.RAM i).reserved = true → (m.RAM i).reserved = true)
    (he : ∀ y u, m'.entry y u = m.entry y u) : m'.AgreeOn on where
  toPlaced := h.toPlaced.congr hp hs hcur
  valid hx hxe hval := by
    obtain ⟨y, hy, hid, -, hidx⟩ := hp.live hx
    rw [he, entry_eq_of_index hidx.symm] at hxe
    obtain ⟨i, hi, hfa, hpage, hRe, hMe⟩ := h.valid hy hxe hval
    exact ⟨i, hi, hfa, hid ▸ hpage.congr (hs i hi), by rw [hR i hi, hRe], by rw [hM i hi, hMe]⟩
  held hi hocc hpte hx hid := by
    obtain ⟨y, hy, hidy, -, hidx⟩ := hp.live hx
    obtain ⟨hocc', hpid, hv, -⟩ := Frame.shape_eq (hs _ hi)
    obtain ⟨e, hent, hval, hfa⟩ := h.held hi (hocc' ▸ hocc) ((shape_pte_none (hs _ hi)).mp hpte) hy
      (by rw [← hpid, hid, hidy])
    exact ⟨e, by rw [he, hv, entry_eq_of_index hidx.symm, hent], hval, hfa⟩
  clean hf hocc := by
    obtain ⟨h1, h2, h3⟩ := h.clean hf ((Frame.shape_eq (hs _ hf)).1 ▸ hocc)
    refine ⟨by rw [hR _ hf, h1], by rw [hM _ hf, h2], ?_⟩
    exact Bool.eq_false_iff.mpr fun hr => Bool.eq_false_iff.mp h3 (hres _ hf hr)

theorem bits_eq {fr fr' : Frame} (h : fr.bits = fr'.bits) :
    fr.R = fr'.R ∧ fr.M = fr'.M ∧ fr.reserved = fr'.reserved := by
  simpa only [Frame.bits, Prod.mk.injEq] using h

/-- A state that differs in what the agreement does not read. -/
theorem AgreeOn.of_sameProcs (h : m.AgreeOn on) (hp : SameProcs m m') (hr : m'.RAM = m.RAM)
    (hcur : ∀ p, m'.currProcess = some p → p ∈ m'.currentPCBs) : m'.AgreeOn on :=
  h.congr hp hcur (fun _ _ => by rw [hr]) (fun _ _ => by rw [hr]) (fun _ _ => by rw [hr])
    (fun _ _ => by rw [hr]; exact id) fun _ _ => entry_congr (fun _ _ => by rw [hr]) _

/-! ### Replacing the contents of a frame -/

/-- Leaving out a free frame. -/
theorem AgreeOn.except_free (h : m.AgreeOn Everywhere) (hocc : (m.RAM i).occupied = false) :
    m.AgreeOn (· ≠ i) where
  toPlaced := h.toPlaced.except (h.free trivial hocc)
  valid hx he hval := by
    obtain ⟨j, -, hfa, hpage, hb⟩ := h.valid hx he hval
    refine ⟨j, ?_, hfa, hpage, hb⟩
    rintro rfl
    exact nomatch hocc.symm.trans hpage.occupied
  held _ := h.held trivial
  clean _ := h.clean trivial

/-- **Taking a page out of its owner's table leaves the frame without an owner.** -/
theorem Evicted.agree (h : m.AgreeOn Everywhere) (hocci : (m.RAM i).occupied = true)
    (hpte : (m.RAM i).pte = none)
    (hz : m.Live q z) (hid : (m.RAM i).processId = z.id)
    {r : Fin 32 → Frame} (he : Evicted m { m with RAM := r } z i) :
    ({ m with RAM := r } : Mem).AgreeOn (· ≠ i) where
  toPlaced := he.placed h.toPlaced hpte
  valid {p x v e} hx hxe hval := by
    rw [he.entry] at hxe
    split_ifs at hxe with hc
    · obtain rfl := Option.some.inj hxe
      exact nomatch hval
    · obtain ⟨j, -, hfa, hpage, hR, hM⟩ := h.valid hx hxe hval
      obtain ⟨hbR, hbM, -⟩ := bits_eq (he.bits j)
      refine ⟨j, ?_, hfa, hpage.congr (he.shape j), hbR.trans hR, hbM.trans hM⟩
      rintro rfl
      -- the frame would hold the page that was just taken out
      obtain rfl := h.wf.ids hx hz (hpage.processId.symm.trans hid)
      exact hc ⟨by rw [Live.unique hx hz], hpage.vpage.symm⟩
  held {j p x} hj hocc hp hx hidx := by
    obtain ⟨hocc', hpid, hvp, -⟩ := Frame.shape_eq (he.shape j)
    obtain ⟨e, hent, hval, hfa⟩ := h.held trivial (hocc' ▸ hocc)
      ((shape_pte_none (he.shape j)).mp hp) hx (hpid ▸ hidx)
    refine ⟨e, ?_, hval, hfa⟩
    rw [hvp, he.entry, if_neg, hent]
    rintro ⟨hfi, hv⟩
    -- the entry that was taken out pointed to the frame `i`
    obtain ⟨e', hent', -, hfa'⟩ := h.held trivial hocci hpte hz hid
    rw [← entry_eq_of_index hfi, ← hv, hent] at hent'
    obtain rfl := Option.some.inj hent'
    exact hj (coe_inj (hfa.symm.trans hfa'))
  clean {f} _ hocc := by
    obtain ⟨hbR, hbM, hbr⟩ := bits_eq (he.bits f)
    obtain ⟨h1, h2, h3⟩ := h.clean trivial ((Frame.shape_eq (he.shape f)).1 ▸ hocc)
    exact ⟨hbR.trans h1, hbM.trans h2, hbr.trans h3⟩

/-- **Putting a page into the frame that was left out.** -/
theorem Loaded.agree {w : Bool} {e : PTE} (h : m.AgreeOn (· ≠ i)) (hp : SameProcs m m')
    (hcur : ∀ p, m'.currProcess = some p → p ∈ m'.currentPCBs) (hx : m.Live p x)
    (hent : m.entry x v = some e) (hinv : e.valid = false) (hl : Loaded m m' x v i w) :
    m'.Consistent := by
  obtain ⟨g, hgi, hxg, h0, hv⟩ := h.entry_bounds hx hent
  have hplaced : m'.Placed Everywhere :=
    hl.placed h.toPlaced hp hcur hx hxg.ne_neg_one h0 hv
  -- two live processes with page tables in the same frame are the same
  have hsame : ∀ {q y}, m.Live q y → y.frameIndex = x.frameIndex → y = x := by
    intro q y hy hyx
    obtain ⟨f, -, hyf⟩ := h.tableAt hy (hyx ▸ hxg.ne_neg_one)
    obtain rfl := coe_inj (hyf.index.symm.trans (hyx.trans hxg.index))
    obtain rfl := h.tableAt_inj hy hx hyf hxg
    exact hy.unique hx
  refine ⟨hplaced, fun {q y u e'} hy hye hval => ?_, fun {j q y} _ hocc hpte hy hid => ?_,
    fun {f} _ hocc => ?_⟩
  · obtain ⟨y', hy', hidy, -, hidx⟩ := hp.live hy
    rw [hl.entry, ← hidx] at hye
    split_ifs at hye with hc
    · obtain rfl := hsame hy' hc.1
      obtain rfl := Option.some.inj hye
      exact ⟨i, trivial, rfl, by rw [← hidy, hc.2]; exact hl.page, hl.R, hl.M⟩
    · rw [entry_eq_of_index hidx.symm] at hye
      obtain ⟨j, hj, hfa, hpage, hR, hM⟩ := h.valid hy' hye hval
      obtain ⟨hbR, hbM, -⟩ := bits_eq (hl.bits j hj)
      exact ⟨j, trivial, hfa, hidy ▸ hpage.congr (hl.shape j hj), hbR.trans hR, hbM.trans hM⟩
  · obtain ⟨y', hy', hidy, -, hidx⟩ := hp.live hy
    by_cases hj : j = i
    · subst hj
      have hyx : y'.id = x.id := by rw [hidy, ← hid, hl.page.processId]
      obtain rfl := h.wf.ids hy' hx hyx
      obtain rfl := hy'.unique hx
      refine ⟨{ R := true, M := w, frameAddress := j, valid := true }, ?_, rfl, rfl⟩
      rw [hl.entry, hl.page.vpage, if_pos ⟨hidx.symm, rfl⟩]
    · obtain ⟨hocc', hpid, hvp, -⟩ := Frame.shape_eq (hl.shape j hj)
      obtain ⟨e', hent', hval, hfa⟩ := h.held hj (hocc' ▸ hocc)
        ((shape_pte_none (hl.shape j hj)).mp hpte) hy' (by rw [← hpid, hid, hidy])
      refine ⟨e', ?_, hval, hfa⟩
      rw [hl.entry, if_neg, hvp, entry_eq_of_index hidx.symm, hent']
      rintro ⟨hyx, hu⟩
      -- the entry that was written was not valid before
      obtain rfl := hsame hy' (hidx.trans hyx)
      rw [← hvp, hu, hent] at hent'
      obtain rfl := Option.some.inj hent'
      exact nomatch hinv.symm.trans hval
  · have hf : f ≠ i := by
      rintro rfl
      exact nomatch hocc.symm.trans hl.page.occupied
    obtain ⟨hbR, hbM, hbr⟩ := bits_eq (hl.bits f hf)
    obtain ⟨h1, h2, h3⟩ := h.clean hf ((Frame.shape_eq (hl.shape f hf)).1 ▸ hocc)
    exact ⟨hbR.trans h1, hbM.trans h2, hbr.trans h3⟩

/-- An empty table has no valid entry. -/
theorem entryOf_replicate {n : ℕ} {e : PTE} (h : entryOf (List.replicate n PTE.empty) u = some e) :
    e = PTE.empty := by
  unfold entryOf at h
  split_ifs at h
  exact List.eq_of_mem_replicate (List.mem_of_getElem? h)

/-- **Putting an empty page table into the frame that was left out.** -/
theorem Assigned.agree (h : m.AgreeOn (· ≠ i)) (hx : m.Live p x) (hn : x.frameIndex = -1)
    (ho : FramesOnly (m.withPcb p { x with frameIndex := i }) m') (ha : Assigned m m' x i) :
    m'.Consistent := by
  have hplaced := ha.placed h.toPlaced hx hn ho
  have htable := ha.tableAt (h.limits hx)
  have hself : m'.Live p { x with frameIndex := i } := ho.live.mpr (hx.withPcb _)
  have hother : ∀ {q y}, q ≠ p → (m'.Live q y ↔ m.Live q y) := by
    intro q y hq
    rw [ho.live, Live, Live, withPcb_heap_of_ne hq]
    rfl
  -- the other processes read their entries where they did before
  have hent : ∀ {q y}, q ≠ p → m.Live q y → ∀ u, m'.entry y u = m.entry y u := by
    intro q y hq hy u
    refine entry_congr (fun f hf => ?_) u
    rw [ha.frames f]
    rintro rfl
    rcases h.table hy with hm | ⟨g, hg, hyg⟩
    · omega
    · exact hg (coe_inj (hyg.index.symm.trans hf))
  refine ⟨hplaced, fun {q y u e} hy hye hval => ?_, fun {j q y} _ hocc hpte hy hid => ?_,
    fun {f} _ hocc => ?_⟩
  · by_cases hq : q = p
    · subst hq
      obtain rfl := hy.unique hself
      rw [entry_eq htable.index (by rw [ha.table])] at hye
      rw [entryOf_replicate hye] at hval
      cases hval
    · have hy' := (hother hq).mp hy
      rw [hent hq hy'] at hye
      obtain ⟨j, hj, hfa, hpage, hR, hM⟩ := h.valid hy' hye hval
      have hframe := ha.frames j hj
      exact ⟨j, trivial, hfa, hpage.congr (by rw [hframe]), by rw [hframe, hR], by rw [hframe, hM]⟩
  · have hj : j ≠ i := by
      rintro rfl
      exact htable.pte_ne_none hpte
    rw [ha.frames j hj] at hocc hpte hid ⊢
    by_cases hq : q = p
    · subst hq
      obtain rfl := hy.unique hself
      obtain ⟨e, he, -⟩ := h.held hj hocc hpte hx hid
      rw [entry_of_none hn] at he
      cases he
    · have hy' := (hother hq).mp hy
      rw [hent hq hy']
      exact h.held hj hocc hpte hy' hid
  · have hf : f ≠ i := by
      rintro rfl
      exact absurd (hocc.symm.trans htable.occupied) (by simp)
    rw [ha.frames f hf] at hocc ⊢
    exact h.clean hf hocc

/-- **A page that was not resident goes into a frame.** -/
theorem PageIn.agree {w : Bool} {e : PTE} (hin : PageIn m m' x v i w) (h : m.Consistent)
    (hp : SameProcs m m') (hcur : ∀ p, m'.currProcess = some p → p ∈ m'.currentPCBs)
    (hx : m.Live p x) (hent : m.entry x v = some e) (hinv : e.valid = false) :
    m'.Consistent := by
  cases hin with
  | free hocc hl => exact hl.agree (h.except_free hocc) hp hcur hx hent hinv
  | @evict q z r hocc hpte hres hz hid he hl =>
    have hag := he.agree h hocc hpte hz hid
    by_cases hc : x.frameIndex = z.frameIndex ∧ v = (m.RAM i).vpage
    · exact hl.agree hag ⟨hp.pcbs, hp.keys⟩ hcur hx (by rw [he.entry, if_pos hc]) rfl
    · exact hl.agree hag ⟨hp.pcbs, hp.keys⟩ hcur hx (by rw [he.entry, if_neg hc]; exact hent) hinv

/-- **A page table goes into a frame.** -/
theorem TableIn.agree (hin : TableIn m m' x i) (h : m.Consistent) (hx : m.Live p x)
    (hn : x.frameIndex = -1) (ho : FramesOnly (m.withPcb p { x with frameIndex := i }) m') :
    m'.Consistent := by
  cases hin with
  | free hocc ha => exact ha.agree (h.except_free hocc) hx hn ho
  | evict hocc hpte hres hz hid he ha =>
    exact ha.agree (he.agree h hocc hpte hz hid) hx hn ⟨ho.heap, ho.brk, ho.pcbs, ho.cur⟩

/-- The entries of a table that has just been made are not valid. -/
theorem TableIn.entry {e : PTE} (hin : TableIn m m' x i)
    (he : m'.entry { x with frameIndex := i } v = some e) : e.valid = false := by
  obtain ⟨r, ha⟩ := hin.assigned
  rw [entry_eq rfl (by rw [ha.table])] at he
  rw [entryOf_replicate he]
  rfl

/-- **`initialize_PCB` keeps the MMU consistent.** -/
theorem Started.agree (hst : Started m m' p x) (h : m.Consistent) (hx : m.Live p x)
    (hn : x.frameIndex = -1) : m'.Consistent := by
  have hplaced' := hst.placed h.toPlaced hx hn
  cases hst with
  | full _ he => exact he ▸ h
  | tableOnly i hin ho _ => exact hin.agree h hx hn ho
  | @both i j y m₁ hin ho hy hpage ho' _ =>
    have hag := hin.agree h hx hn ho
    have hx₁ : m₁.Live p { x with frameIndex := i } := ho.live.mpr (hx.withPcb _)
    obtain ⟨r, ha⟩ := hin.assigned
    obtain ⟨e, he⟩ := (ha.tableAt (h.limits hx)).entry_some (v := 0) le_rfl
      (by have := h.limits hx; change 0 < x.limit; omega)
    exact hpage.agree hag (Started.sameProcs ho hy ho') (fun q hq => hplaced'.wf.cur hq) hx₁ he
      (hin.entry he)

/-! ### Accesses, upkeep and the end of a process -/

/-- A hit keeps the shapes. -/
theorem touched_shape {pt : List PTE} {e : PTE} {j : Fin 32} {w : Bool}
    (hpt : (m.RAM f).pte = some pt) (g : Fin 32) :
    ((m.touched f pt v e j w).RAM g).shape = (m.RAM g).shape := by
  rw [touched, setFrame_RAM]
  by_cases hg : g = j
  · rw [hg, Function.update_self]
    exact shape_setEntry hpt j
  · rw [Function.update_of_ne hg, shape_setEntry hpt]

theorem touched_placed {pt : List PTE} {e : PTE} {j : Fin 32} {w : Bool} (h : m.Placed on)
    (hpt : (m.RAM f).pte = some pt) : (m.touched f pt v e j w).Placed on :=
  h.congr (.of_eq rfl rfl) (fun g _ => touched_shape hpt g) fun _ hp => h.wf.cur hp

/-- A hit changes one entry. -/
theorem touched_entry {pt : List PTE} {e : PTE} {j : Fin 32} {w : Bool}
    (hpt : (m.RAM f).pte = some pt) (he : entryOf pt v = some e) (y : PCB) (u : ℤ) :
    (m.touched f pt v e j w).entry y u =
      if y.frameIndex = f ∧ u = v then some { e with R := true, M := e.M || w }
      else m.entry y u := by
  rw [← entry_setEntry hpt he]
  refine entry_congr (fun g _ => ?_) u
  rw [touched, setFrame_RAM]
  by_cases hg : g = j
  · rw [hg, Function.update_self]
  · rw [Function.update_of_ne hg]

/-- **A hit sets the bits of the entry and of the frame together.** -/
theorem touched_agree {pt : List PTE} {e : PTE} {j : Fin 32} {w : Bool} (h : m.Consistent)
    (hx : m.Live p x) (hf : m.TableAt x f) (hpt : (m.RAM f).pte = some pt)
    (he : entryOf pt v = some e) (hval : e.valid = true) (hj : e.frameAddress = ((j : ℕ) : ℤ)) :
    (m.touched f pt v e j w).Consistent := by
  have hsh := fun g => touched_shape (m := m) (v := v) (e := e) (j := j) (w := w) hpt g
  have hent : m.entry x v = some e := by rw [entry_eq hf.index hpt, he]
  -- the entry and the frame point to each other
  obtain ⟨j', -, hj', hpage, hR, hM⟩ := h.valid hx hent hval
  obtain rfl := coe_inj (hj.symm.trans hj')
  have hjf : j ≠ f := by
    rintro rfl
    exact hf.pte_ne_none hpage.page
  have hself : (m.touched f pt v e j w).RAM j =
      { m.RAM j with R := true, M := (m.RAM j).M || w } := by
    rw [touched, setFrame_RAM, Function.update_self, setEntry_RAM_of_ne hjf]
  have hoff : ∀ g, g ≠ j → ((m.touched f pt v e j w).RAM g).bits = (m.RAM g).bits := by
    intro g hg
    rw [touched, setFrame_RAM, Function.update_of_ne hg, bits_setEntry]
  refine ⟨touched_placed h.toPlaced hpt, fun {q y u e'} hy hye hval' => ?_,
    fun {i q y} _ hocc hpte hy hid => ?_, fun {i} _ hocc => ?_⟩
  · have hy' : m.Live q y := hy
    rw [touched_entry hpt he] at hye
    split_ifs at hye with hc
    · obtain ⟨f', -, hyf⟩ := h.tableAt hy' (by have := hc.1; omega)
      obtain rfl := coe_inj (hyf.index.symm.trans hc.1)
      obtain rfl := h.tableAt_inj hy' hx hyf hf
      obtain rfl := hy'.unique hx
      obtain rfl := Option.some.inj hye
      refine ⟨j, trivial, hj, hc.2 ▸ hpage.congr (hsh j), by rw [hself], ?_⟩
      rw [hself]
      exact congrArg (· || w) hM
    · obtain ⟨i, -, hfa, hpage', hR', hM'⟩ := h.valid hy' hye hval'
      have hij : i ≠ j := by
        rintro rfl
        obtain rfl := h.wf.ids hy' hx (hpage'.processId.symm.trans hpage.processId)
        obtain rfl := hy'.unique hx
        exact hc ⟨hf.index, hpage'.vpage.symm.trans hpage.vpage⟩
      obtain ⟨hbR, hbM, -⟩ := bits_eq (hoff i hij)
      exact ⟨i, trivial, hfa, hpage'.congr (hsh i), hbR.trans hR', hbM.trans hM'⟩
  · have hy' : m.Live q y := hy
    obtain ⟨hocc', hpid, hv, -⟩ := Frame.shape_eq (hsh i)
    obtain ⟨e', hent', hval', hfa⟩ := h.held trivial (hocc' ▸ hocc)
      ((shape_pte_none (hsh i)).mp hpte) hy' (hpid ▸ hid)
    rw [hv, touched_entry hpt he]
    split_ifs with hc
    · rw [entry_eq_of_index (hc.1.trans hf.index.symm), hc.2, hent] at hent'
      obtain rfl := Option.some.inj hent'
      exact ⟨_, rfl, hval', hfa⟩
    · exact ⟨e', hent', hval', hfa⟩
  · have hij : i ≠ j := by
      rintro rfl
      exact absurd (hocc.symm.trans ((Frame.shape_eq (hsh i)).1.trans hpage.occupied)) (by simp)
    obtain ⟨hbR, hbM, hbr⟩ := bits_eq (hoff i hij)
    obtain ⟨h1, h2, h3⟩ := h.clean trivial ((Frame.shape_eq (hsh i)).1 ▸ hocc)
    exact ⟨hbR.trans h1, hbM.trans h2, hbr.trans h3⟩

theorem entryOf_map {pt : List PTE} {g : PTE → PTE} :
    entryOf (pt.map g) v = (entryOf pt v).map g := by
  unfold entryOf
  split_ifs
  · exact List.getElem?_map
  · rfl

/-- Every entry loses its `R` bit. -/
theorem cleared_entry (h : m.Placed Everywhere) (hx : m.Live p x) :
    ({ m with RAM := fun i => cleared (m.RAM i) } : Mem).entry x v =
      (m.entry x v).map fun e => { e with R := false } := by
  rcases h.table hx with hn | ⟨f, -, hf⟩
  · rw [entry_of_none hn, entry_of_none hn, Option.map_none]
  · obtain ⟨pt, hpt, -⟩ := hf.table
    have hpt' : (cleared (m.RAM f)).pte = some (pt.map fun e => { e with R := false }) := by
      simp only [cleared, hf.occupied, if_true, hpt, Option.map_some]
    rw [entry_eq hf.index hpt, entry_eq hf.index hpt', entryOf_map]

/-- **`clear_recent` clears the entries and the frames together.** -/
theorem clearRecent_agree (h : m.Consistent) :
    ({ m with RAM := fun i => cleared (m.RAM i) } : Mem).Consistent := by
  have hfield : ∀ i, (cleared (m.RAM i)).M = (m.RAM i).M ∧
      (cleared (m.RAM i)).reserved = (m.RAM i).reserved ∧
      ((m.RAM i).occupied = true → (cleared (m.RAM i)).R = false) ∧
      ((m.RAM i).occupied = false → (cleared (m.RAM i)).R = (m.RAM i).R) := by
    intro i
    cases hocc : (m.RAM i).occupied <;> simp [cleared, hocc]
  refine ⟨clearRecent_placed h.toPlaced, fun {q y u e} hy hye hval => ?_,
    fun {i q y} _ hocc hpte hy hid => ?_, fun {i} _ hocc => ?_⟩
  · have hy' : m.Live q y := hy
    rw [cleared_entry h.toPlaced hy'] at hye
    obtain ⟨e', he', rfl⟩ := Option.map_eq_some_iff.mp hye
    obtain ⟨i, -, hfa, hpage, -, hM⟩ := h.valid hy' he' hval
    exact ⟨i, trivial, hfa, hpage.congr (cleared_shape _), (hfield i).2.2.1 hpage.occupied,
      (hfield i).1.trans hM⟩
  · have hy' : m.Live q y := hy
    obtain ⟨hocc', hpid, hv, -⟩ := Frame.shape_eq (cleared_shape (m.RAM i))
    obtain ⟨e, he, hval, hfa⟩ := h.held trivial (hocc'.symm.trans hocc)
      ((@shape_pte_none m { m with RAM := fun i => cleared (m.RAM i) } i
        (cleared_shape _)).mp hpte) hy' (hpid.symm.trans hid)
    refine ⟨{ e with R := false }, ?_, hval, hfa⟩
    rw [cleared_entry h.toPlaced hy', hv, he, Option.map_some]
  · have hocc' : (m.RAM i).occupied = false :=
      (Frame.shape_eq (cleared_shape (m.RAM i))).1.symm.trans hocc
    obtain ⟨h1, h2, h3⟩ := h.clean trivial hocc'
    exact ⟨((hfield i).2.2.2 hocc').trans h1, (hfield i).1.trans h2, (hfield i).2.1.trans h3⟩

/-- **`freeReserved` keeps the MMU consistent.** -/
theorem unreserve_agree (h : m.Consistent) (i : Fin 32) :
    (m.setFrame i fun fr => { fr with reserved := false }).Consistent := by
  have hframe : ∀ f, ((m.setFrame i fun fr => { fr with reserved := false }).RAM f).R =
      (m.RAM f).R ∧ ((m.setFrame i fun fr => { fr with reserved := false }).RAM f).M =
      (m.RAM f).M ∧ ((m.setFrame i fun fr => { fr with reserved := false }).RAM f).pte =
      (m.RAM f).pte ∧ (((m.setFrame i fun fr => { fr with reserved := false }).RAM f).reserved =
      true → (m.RAM f).reserved = true) := by
    intro f
    rw [setFrame_RAM]
    by_cases hf : f = i
    · rw [hf, Function.update_self]
      exact ⟨rfl, rfl, rfl, fun hr => nomatch hr⟩
    · rw [Function.update_of_ne hf]
      exact ⟨rfl, rfl, rfl, id⟩
  exact h.congr (.of_eq rfl rfl) (fun _ hp => h.wf.cur hp) (fun f _ => unreserve_shape m i f)
    (fun f _ => (hframe f).1) (fun f _ => (hframe f).2.1) (fun f _ => (hframe f).2.2.2)
    fun _ _ => entry_congr (fun f _ => (hframe f).2.2.1) _

/-- Finishing a process leaves the entries of the others alone. -/
theorem Finished.entry (hfin : Finished m m' p x) (h : m.Consistent) (hx : m.Live p x)
    (hy : m'.Live q y) (u : ℤ) : m'.entry y u = m.entry y u := by
  refine entry_congr (fun f hf => ?_) u
  obtain ⟨hy, hq⟩ := hfin.live.mp hy
  have hid : y.id ≠ x.id := fun he => hq (h.wf.ids hy hx he)
  rcases h.table hy with hn | ⟨g, -, hg⟩
  · omega
  · obtain rfl := coe_inj (hg.index.symm.trans hf)
    rw [hfin.RAM_of_ne (hg.processId ▸ hid)]

/-- **Finishing a process keeps the MMU consistent.** -/
theorem Finished.agree (hfin : Finished m m' p x) (h : m.Consistent) (hx : m.Live p x) :
    m'.Consistent := by
  have hne : ∀ {q y}, m'.Live q y → m.Live q y ∧ y.id ≠ x.id := by
    intro q y hy
    obtain ⟨hy, hq⟩ := hfin.live.mp hy
    exact ⟨hy, fun he => hq (h.wf.ids hy hx he)⟩
  refine ⟨h.toPlaced.finish hx hfin, fun {q y u e} hy hye hval => ?_,
    fun {i q y} _ hocc hpte hy hid => ?_, fun {i} _ hocc => ?_⟩
  · obtain ⟨hy', hid⟩ := hne hy
    rw [hfin.entry h hx hy] at hye
    obtain ⟨i, -, hfa, hpage, hR, hM⟩ := h.valid hy' hye hval
    have hframe := hfin.RAM_of_ne (i := i) (hpage.processId ▸ hid)
    exact ⟨i, trivial, hfa, hpage.congr (by rw [hframe]), by rw [hframe, hR], by rw [hframe, hM]⟩
  · obtain ⟨hy', hyid⟩ := hne hy
    have hframe := hfin.RAM_of_ne (hfin.ne_of_occupied hocc)
    rw [hframe] at hocc hpte hid ⊢
    rw [hfin.entry h hx hy]
    exact h.held trivial hocc hpte hy' hid
  · by_cases hc : (m.RAM i).processId = x.id
    · rw [hfin.RAM, if_pos hc]
      exact ⟨rfl, rfl, rfl⟩
    · rw [hfin.RAM_of_ne hc] at hocc ⊢
      exact h.clean trivial hocc

/-- **Receiving a process keeps the MMU consistent.** -/
theorem create_agree (h : m.Consistent) (hfresh : m.Fresh) {d : ProcessData}
    (hlim : 1 ≤ d.limit) (hid : ∀ p x, m.Live p x → x.id ≠ d.id) : (m.create d).Consistent := by
  have hl : ∀ {q y}, (m.create d).Live q y ↔ m.Live q y ∨ (q = m.brk ∧ y = createPCB d) :=
    live_create hfresh h.wf
  refine ⟨h.toPlaced.create hfresh hlim hid, fun {q y u e} hy hye hval => ?_,
    fun {i q y} _ hocc hpte hy hidy => ?_, fun hf hocc => h.clean hf hocc⟩
  · rcases hl.mp hy with hy | ⟨-, rfl⟩
    · obtain ⟨i, hi, hfa, hpage, hbits⟩ := h.valid hy hye hval
      exact ⟨i, hi, hfa, hpage.congr rfl, hbits⟩
    · rw [entry_of_none rfl] at hye
      exact nomatch hye
  · rcases hl.mp hy with hy | ⟨-, rfl⟩
    · exact h.held trivial hocc hpte hy hidy
    · obtain ⟨r, z, hz, hidz, -⟩ := h.inside trivial hocc hpte
      exact absurd (hidz.symm.trans hidy) (hid r z hz)

end Mem

end CpuScheduler
