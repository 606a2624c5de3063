import CpuScheduler.Mmu.FaultPaths
import CpuScheduler.Mmu.Laws

/-!
# When a fault gets its frame

`fault_handler` takes a frame that is free or evicts a page; it falls through without a
word when every frame is a page table or reserved. `CpuScheduler.Mem.Enough` says when
there is a frame for what is asked: two frames for a process that starts – its page table
and its page 0 –, and one for a demand fault, which has to be free for a page from 64 on,
since an eviction maps another page then.

Where there always is enough, every process that has been started holds a page table, and
every blocked process has its page in a frame that is reserved for it
(`CpuScheduler.Mem.Allocated`). Which page a blocked process may be waiting for is a
parameter of the predicate: it is used to follow one process through a run.
-/

namespace CpuScheduler

/-- A frame that a fault can take: neither a page table nor reserved. -/
def Frame.Takeable (fr : Frame) : Prop := fr.pte = none ∧ fr.reserved = false

namespace Mem

open Fallible

variable {m m' m₁ : Mem} {p q : Ptr} {x y z : PCB} {f g i : Fin 32} {v : ℤ} {c : Char} {w : Bool}
  {clk : Clk} {raw : List Char} {L : Ptr → ℤ → Prop}

/-- **There is a frame for what a fault asks for.** -/
def Enough : Room
  | .pageTable, _, _, RAM => ∃ i j, i ≠ j ∧ (RAM i).Takeable ∧ (RAM j).Takeable
  | .demand, _, v, RAM => (∃ i, (RAM i).occupied = false) ∨ (v < 64 ∧ ∃ i, (RAM i).Takeable)
  | .firstPage, _, _, _ => True

/-- There is a frame, and a process that faults may wait for its page. -/
def EnoughFor (L : Ptr → ℤ → Prop) : Room := fun t p v RAM =>
  Enough t p v RAM ∧ (t = .demand → L p v)

/-- The page the process waits for is in the frame that is reserved for it. -/
def Backed (m : Mem) (x : PCB) : Prop :=
  ∃ f : Fin 32, x.pendingFrame = f ∧ m.PageAt x.id x.pendingPage f ∧ (m.RAM f).reserved = true

/-- **No allocation has failed.** -/
structure Allocated (L : Ptr → ℤ → Prop) (m : Mem) : Prop where
  agree : m.Consistent
  started : ∀ {p x}, m.Live p x → (x.pid = -1 ↔ x.frameIndex = -1)
  backed : ∀ {p x}, m.Live p x → x.state = .B → m.Backed x ∧ L p x.pendingPage

/-! ### Frames that are left alone -/

/-- A page that goes into a frame leaves the other frames as they are, up to the entries
of the page tables. -/
theorem PageIn.frame_of_ne (h : PageIn m m' x v i w) (hg : g ≠ i) :
    (m'.RAM g).shape = (m.RAM g).shape ∧ (m'.RAM g).reserved = (m.RAM g).reserved := by
  cases h with
  | free hocc hl => exact ⟨hl.shape g hg, (bits_eq (hl.bits g hg)).2.2⟩
  | evict hocc hpte hres hz hid he hl =>
    exact ⟨(hl.shape g hg).trans (he.shape g),
      (bits_eq (hl.bits g hg)).2.2.trans (bits_eq (he.bits g)).2.2⟩

/-- A page table that goes into a frame does so, too. -/
theorem TableIn.frame_of_ne (h : TableIn m m' x i) (hg : g ≠ i) :
    (m'.RAM g).shape = (m.RAM g).shape ∧ (m'.RAM g).reserved = (m.RAM g).reserved := by
  cases h with
  | free hocc ha => exact ⟨by rw [ha.frames g hg], by rw [ha.frames g hg]⟩
  | evict hocc hpte hres hz hid he ha =>
    rw [ha.frames g hg]
    exact ⟨he.shape g, (bits_eq (he.bits g)).2.2⟩

/-- A reserved page is not evicted for a page, -/
theorem PageIn.ne (h : PageIn m m' x v i w) (hocc : (m.RAM g).occupied = true)
    (hres : (m.RAM g).reserved = true) : g ≠ i := by
  rintro rfl
  cases h with
  | free hfree _ => exact nomatch hfree.symm.trans hocc
  | evict _ _ hvict _ _ _ _ => exact nomatch hvict.symm.trans hres

/-- nor for a page table. -/
theorem TableIn.ne (h : TableIn m m' x i) (hocc : (m.RAM g).occupied = true)
    (hres : (m.RAM g).reserved = true) : g ≠ i := by
  rintro rfl
  cases h with
  | free hfree _ => exact nomatch hfree.symm.trans hocc
  | evict _ _ hvict _ _ _ _ => exact nomatch hvict.symm.trans hres

/-! ### Getting a frame -/

theorem scan_ne_nothing {RAM : Fin 32 → Frame} (h : (RAM i).Takeable) : scan RAM ≠ .nothing := by
  intro hs
  obtain ⟨-, hp | hr⟩ := scan_nothing.mp hs i
  · exact hp h.1
  · exact nomatch h.2.symm.trans hr

/-- **A demand fault that has a frame maps its page into it**, and reserves it. -/
theorem AgreeOn.demand {e : PTE} (h : m.Consistent) (hx : m.Live p x) (hf : m.TableAt x f)
    (he : m.entry x v = some e) (henough : Enough .demand p v m.RAM) (clk : Clk)
    (raw : List Char) (c : Char) :
    ∃ (i : Fin 32) (t : ℤ) (m' : Mem), m.faultHandler clk x.id v .demand raw c = .ok m' ∧
      FramesOnly (m.withPcb p { blockedUntil x t v with pendingPage := v, pendingFrame := i }) m' ∧
      PageIn m m' x v i (c = 'w') ∧ (m'.RAM i).reserved = true := by
  cases hs : scan m.RAM with
  | free i =>
    obtain ⟨m', hm', ho, hin, hres⟩ := faultHandler_demand_free clk raw (c := c)
      h.toPlaced hx hf he hs
    exact ⟨i, _, m', hm', ho, hin, hres⟩
  | victim i =>
    -- no frame is free, so the page is one of the first 64
    have hsmall : swapPage .demand v = v := by
      rw [swapPage_demand]
      rcases henough with ⟨j, hj⟩ | ⟨hv, -⟩
      · exact nomatch hj.symm.trans ((scan_victim hs).2.2 j)
      · exact if_pos hv
    obtain ⟨m', hm', ho, hin, hres⟩ := faultHandler_demand_victim clk raw (c := c)
      h.toPlaced hx hf (hsmall.symm ▸ he) hs
    rw [hsmall] at ho hin
    exact ⟨i, _, m', hm', ho, hin, hres⟩
  | nothing =>
    rcases henough with ⟨j, hj⟩ | ⟨-, j, hj⟩
    · exact nomatch hj.symm.trans (scan_nothing.mp hs j).1
    · exact absurd hs (scan_ne_nothing hj)

/-- The two calls of `fault_handler` for a process that starts: the first gives it a page
table, the second page 0. -/
structure Launched (clk : Clk) (m m' : Mem) (p : Ptr) (x : PCB) : Prop where
  calls : ∃ (i j : Fin 32) (m₁ : Mem) (y : PCB),
    m.faultHandler clk x.id 0 .pageTable [] 'r' = .ok m₁ ∧
    FramesOnly (m.withPcb p { x with frameIndex := i }) m₁ ∧ TableIn m m₁ x i ∧
    m₁.faultHandler clk x.id 0 .firstPage [] 'r' = .ok m' ∧
    (y = { x with frameIndex := i } ∨ ∃ t, y = { x with frameIndex := i, unblockAt := t }) ∧
    FramesOnly (m.withPcb p y) m' ∧ PageIn m₁ m' { x with frameIndex := i } 0 j false

/-- **Two frames are enough to start a process.** -/
theorem Placed.launch (h : m.Placed Everywhere) (hx : m.Live p x) (hn : x.frameIndex = -1)
    (henough : Enough .pageTable p 0 m.RAM) (clk : Clk) :
    ∃ m', m.initializePCB clk p = .ok m' ∧ Launched clk m m' p x := by
  obtain ⟨a, b, hab, ha, hb⟩ := henough
  rw [initializePCB, pcb_eq hx.2, ok_bind, if_pos hn]
  rcases faultHandler_pageTable clk [] (v := 0) (c := 'r') h hx with
    ⟨hs, -⟩ | ⟨i, m₁, he, ho, hin⟩
  · exact absurd hs (scan_ne_nothing ha)
  · have hplaced := hin.placed h hx hn ho
    have hx₁ : m₁.Live p { x with frameIndex := i } := ho.live.mpr (hx.withPcb _)
    obtain ⟨r, hass⟩ := hin.assigned
    -- one of the two frames is still to be had
    obtain ⟨g, hg⟩ : ∃ g, (m₁.RAM g).Takeable := by
      have hkept : ∀ g, g ≠ i → (m.RAM g).Takeable → (m₁.RAM g).Takeable := fun g hgi hg =>
        ⟨(shape_pte_none (hin.frame_of_ne hgi).1).mpr hg.1, (hin.frame_of_ne hgi).2.trans hg.2⟩
      by_cases hai : a = i
      · exact ⟨b, hkept b (hai ▸ hab.symm) hb⟩
      · exact ⟨a, hkept a hai ha⟩
    rcases faultHandler_firstPage clk [] (c := 'r') hplaced hx₁
      (hass.tableAt (h.limits hx)) with ⟨hs, -⟩ | ⟨j, y, m', he', hy, ho', hpage, -⟩
    · exact absurd hs (scan_ne_nothing hg)
    · refine ⟨m', by rw [he, ok_bind, he'], ⟨i, j, m₁, y, he, ho, hin, he', hy, ?_, hpage⟩⟩
      have := (ho.withPcb p y).trans ho'
      rwa [withPcb_withPcb] at this

/-- The process that has been started: its page table is in one of the frames, and its
page 0 is resident. -/
theorem Launched.resident (h : Launched clk m m' p x) :
    ∃ (y : PCB) (f j : Fin 32), m'.heap p = some y ∧ y.frameIndex = f ∧
      m'.entry y 0 = some { R := true, M := false, frameAddress := j, valid := true } := by
  obtain ⟨i, j, m₁, y, -, -, -, -, hy, ho, hpage⟩ := h.calls
  have hindex : y.frameIndex = (i : Fin 32) := by
    rcases hy with rfl | ⟨t, rfl⟩ <;> rfl
  refine ⟨y, i, j, by rw [ho.heap, withPcb_heap_self], hindex, ?_⟩
  rw [entry_eq_of_index (y := { x with frameIndex := i }) hindex]
  exact hpage.loaded.1

/-! ### The predicate is kept -/

theorem Backed.congr (h : m.Backed x) (hid : y.id = x.id) (hpage : y.pendingPage = x.pendingPage)
    (hframe : y.pendingFrame = x.pendingFrame)
    (hf : ∀ f, m.PageAt x.id x.pendingPage f → (m.RAM f).reserved = true →
      (m'.RAM f).shape = (m.RAM f).shape ∧ (m'.RAM f).reserved = (m.RAM f).reserved) :
    m'.Backed y := by
  obtain ⟨f, hpf, hp, hres⟩ := h
  obtain ⟨hs, hr⟩ := hf f hp hres
  exact ⟨f, hframe.trans hpf, by rw [hid, hpage]; exact hp.congr hs, hr.trans hres⟩

/-- The predicate is kept when the processes that are there were there before, and those
that are blocked are still backed. -/
theorem Allocated.of_live (h : m.Allocated L) (hag : m'.Consistent)
    (hlive : ∀ {q z}, m'.Live q z → m.Live q z ∧ (z.state = .B → m.Backed z → m'.Backed z)) :
    m'.Allocated L where
  agree := hag
  started hz := h.started (hlive hz).1
  backed hz hB :=
    have hb := h.backed (hlive hz).1 hB
    ⟨(hlive hz).2 hB hb.1, hb.2⟩

/-- The same frames, up to the entries of the page tables and the bits. -/
theorem Allocated.of_frames (h : m.Allocated L) (hag : m'.Consistent)
    (hheap : m'.heap = m.heap) (hpcbs : m'.currentPCBs = m.currentPCBs)
    (hf : ∀ f, (m'.RAM f).shape = (m.RAM f).shape ∧ (m'.RAM f).reserved = (m.RAM f).reserved) :
    m'.Allocated L := by
  refine h.of_live hag fun {q z} hz => ⟨?_, fun _ hb => hb.congr rfl rfl rfl fun f _ _ => hf f⟩
  rwa [Live, hheap, hpcbs] at hz

/-- One process has been written to, and the frames that are reserved for the others are
as they were. -/
theorem Allocated.of_pcb (h : m.Allocated L) (hx : m.Live p x) (hag : m'.Consistent)
    (ho : FramesOnly (m.withPcb p y) m') (hstarted : y.pid = -1 ↔ y.frameIndex = -1)
    (hback : y.state = .B → m'.Backed y ∧ L p y.pendingPage)
    (hothers : ∀ {q z}, q ≠ p → m.Live q z → m.Backed z → m'.Backed z) : m'.Allocated L := by
  have hcases : ∀ {q z}, m'.Live q z → (q = p ∧ z = y) ∨ (q ≠ p ∧ m.Live q z) := by
    intro q z hz
    have hz' := ho.live.mp hz
    by_cases hq : q = p
    · subst hq
      exact Or.inl ⟨rfl, hz'.unique (hx.withPcb y)⟩
    · exact Or.inr ⟨hq, hz'.1, (withPcb_heap_of_ne hq y).symm.trans hz'.2⟩
  refine ⟨hag, fun hz => ?_, fun hz hB => ?_⟩
  · rcases hcases hz with ⟨rfl, rfl⟩ | ⟨-, hz⟩
    · exact hstarted
    · exact h.started hz
  · rcases hcases hz with ⟨rfl, rfl⟩ | ⟨hq, hz⟩
    · exact hback hB
    · exact ⟨hothers hq hz (h.backed hz hB).1, (h.backed hz hB).2⟩

theorem touched_reserved {pt : List PTE} {e : PTE} {j : Fin 32} (g : Fin 32) :
    ((m.touched f pt v e j w).RAM g).reserved = (m.RAM g).reserved := by
  rw [touched, setFrame_RAM]
  by_cases hg : g = j
  · rw [hg, Function.update_self]
    exact (bits_eq (bits_setEntry j)).2.2
  · rw [Function.update_of_ne hg]
    exact (bits_eq (bits_setEntry g)).2.2

/-- An access keeps the predicate. -/
theorem Allocated.access {r : CheckResult} (h : m.Allocated L) (hx : m.Live p x)
    (hc : m.check p v c = .ok (r, m')) : m'.Allocated L := by
  obtain ⟨f, hf, ⟨-, rfl, -⟩ | ⟨pt, e, hpt, he, ⟨-, hval, j, hj, rfl⟩ | ⟨-, -, rfl⟩⟩⟩ :=
    check_ok hx.2 hc
  · exact h
  · have htab := h.agree.toPlaced.table_at hx hf
    exact h.of_frames (touched_agree h.agree hx htab hpt he hval hj) rfl rfl fun g =>
      ⟨touched_shape hpt g, touched_reserved g⟩
  · exact h

/-- **A demand fault with a frame keeps the predicate**: its process may be blocked, and
then it is backed. -/
theorem Allocated.demand {e : PTE} (h : m.Allocated L) (hx : m.Live p x) (hf : m.TableAt x f)
    (he : m.entry x v = some e) (hinv : e.valid = false) (hown : x.Own { y with state := x.state })
    (henough : EnoughFor L .demand p v m.RAM)
    (hfault : (m.withPcb p y).faultHandler clk x.id v .demand raw c = .ok m') :
    m'.Allocated L ∧ ∃ z, m'.Live p z ∧ z.pendingPage = v ∧ m'.Backed z := by
  have hk : y.key = x.key := hown.key
  have hsp : SameProcs m (m.withPcb p y) := sameProcs_withPcb hx.2 hk
  have hag : (m.withPcb p y).Consistent :=
    h.agree.of_sameProcs hsp rfl fun q hq => h.agree.toPlaced.wf.cur hq
  have hy : (m.withPcb p y).Live p y := hx.withPcb y
  have hent : (m.withPcb p y).entry y v = some e := by
    rw [entry_withPcb, entry_eq_of_index (key_frameIndex hk), he]
  obtain ⟨i, t, m₁, hm₁, ho, hin, hres⟩ := AgreeOn.demand hag hy
    (hf.congr rfl (key_id hk) (key_limit hk) (key_frameIndex hk)) hent henough.1 clk raw c
  rw [key_id hk] at hm₁
  obtain rfl := Except.ok.inj (hfault.symm.trans hm₁)
  let z : PCB := { blockedUntil y t v with pendingPage := v, pendingFrame := i }
  rw [withPcb_withPcb] at ho
  have hkz : z.key = y.key := blockedUntil_key y t v
  have hspz := (sameProcs_withPcb hx.2 (hkz.trans hk)).trans ho.sameProcs
  have hcur : ∀ q, m'.currProcess = some q → q ∈ m'.currentPCBs :=
    fun q hq => (hspz.wf h.agree.toPlaced.wf (hspz.cur ho.cur h.agree.toPlaced.wf)).cur hq
  have hspy : SameProcs (m.withPcb p y) m' := hsp.symm.trans hspz
  have hpid : z.pid = x.pid := by
    have hb : (blockedUntil y t v).pid = y.pid := by
      unfold blockedUntil
      split_ifs <;> rfl
    exact hb.trans hown.pid
  have hback : m'.Backed z := by
    have hpage := hin.loaded.2.1
    rw [← key_id hkz] at hpage
    exact ⟨i, rfl, hpage, hres⟩
  refine ⟨h.of_pcb hx (hin.agree hag hspy hcur hy hent hinv) ho ?_
    (fun _ => ⟨hback, henough.2 rfl⟩) ?_, z, ho.live.mpr (hx.withPcb z), rfl, hback⟩
  · rw [hpid, key_frameIndex (hkz.trans hk)]
    exact h.started hx
  · intro q u _ _ hb
    refine hb.congr rfl rfl rfl fun g hg hg' => ?_
    exact hin.frame_of_ne (hin.ne hg.occupied hg')

/-- Starting a process keeps the predicate. -/
theorem Allocated.launch (h : m.Allocated L) (hx : m.Live p x) (hl : Launched clk m m' p x)
    (hag : m'.Consistent) {i : ℤ} (hi : i ≠ -1) (hy : m'.heap p = some y) :
    (m'.withPcb p { y with lState := .start, pid := i }).Allocated L := by
  obtain ⟨a, b, m₁, y', -, -, hin, -, hy', ho, hpage⟩ := hl.calls
  obtain rfl : y' = y := by
    rw [ho.heap, withPcb_heap_self] at hy
    exact Option.some.inj hy
  let z : PCB := { y' with lState := .start, pid := i }
  have hz : FramesOnly (m.withPcb p z) (m'.withPcb p z) := by
    have := ho.withPcb p z
    rwa [withPcb_withPcb] at this
  have hsame : z.state = x.state ∧ z.id = x.id ∧ z.pendingPage = x.pendingPage ∧
      z.pendingFrame = x.pendingFrame ∧ z.frameIndex = (a : Fin 32) := by
    rcases hy' with rfl | ⟨t, rfl⟩ <;> exact ⟨rfl, rfl, rfl, rfl, rfl⟩
  obtain ⟨hstate, hid, hpp, hpf, hidx⟩ := hsame
  have hframes : ∀ {u : PCB}, m.Backed u → ∀ (u' : PCB), u'.id = u.id →
      u'.pendingPage = u.pendingPage → u'.pendingFrame = u.pendingFrame →
      (m'.withPcb p z).Backed u' := by
    intro u hb u' h1 h2 h3
    refine hb.congr h1 h2 h3 fun g hg hg' => ?_
    obtain ⟨hs, hr⟩ := hin.frame_of_ne (hin.ne hg.occupied hg')
    obtain ⟨hs', hr'⟩ := hpage.frame_of_ne (hpage.ne ((Frame.shape_eq hs).1.trans hg.occupied)
      (hr.trans hg'))
    exact ⟨hs'.trans hs, hr'.trans hr⟩
  refine h.of_pcb hx ?_ hz ?_ (fun hB => ?_) fun _ _ hb => hframes hb _ rfl rfl rfl
  · refine hag.of_sameProcs (sameProcs_withPcb hy rfl) rfl fun q hq => hag.toPlaced.wf.cur hq
  · show i = -1 ↔ z.frameIndex = -1
    rw [hidx]
    omega
  · obtain ⟨hb, hL⟩ := h.backed hx (hstate.symm.trans hB)
    exact ⟨hframes hb z hid hpp hpf, hpp ▸ hL⟩

/-- **Where there always is enough, no allocation fails.** -/
theorem kept_allocated (L : Ptr → ℤ → Prop) : Kept (Allocated L) (EnoughFor L) Paged where
  write := by
    intro m p x y h hx hw
    refine h.of_pcb hx ?_ (FramesOnly.refl _) ?_ (fun hB => ?_) fun _ _ hb =>
      hb.congr rfl rfl rfl fun _ _ _ => ⟨rfl, rfl⟩
    · exact h.agree.of_sameProcs (sameProcs_withPcb hx.2 hw.key) rfl
        fun q hq => h.agree.toPlaced.wf.cur hq
    · rw [hw.pid, key_frameIndex hw.key]
      exact h.started hx
    · obtain ⟨hb, hL⟩ := h.backed hx (hw.state hB)
      exact ⟨hb.congr (key_id hw.key) hw.pendingPage hw.pendingFrame fun _ _ _ => ⟨rfl, rfl⟩,
        hw.pendingPage ▸ hL⟩
  choose h hcur := h.of_frames (h.agree.of_sameProcs (.of_eq rfl rfl) rfl hcur) rfl rfl
    fun _ => ⟨rfl, rfl⟩
  access h hx hc := h.access hx hc
  block := by
    intro m m' p x y clk v raw c h hx _ hmiss henough _ hown hf
    obtain ⟨f, e, htab, he, hinv, -, -⟩ := h.agree.toPlaced.missed hx hmiss
    exact (h.demand hx htab he hinv hown henough hf).1
  unblock := by
    intro m m' p x t h hx hB hf
    generalize MemLine.loaded t (x.base + x.pendingPage) x.id x.pendingFrame = l at hf
    obtain ⟨i, hi, rfl⟩ := freeReserved_eq_ok hf
    obtain ⟨⟨j, hj, hpage, -⟩, -⟩ := h.backed hx hB
    obtain rfl := coe_inj (hi.symm.trans hj)
    let y : PCB := { x with pendingPage := -1, pendingFrame := -1, state := .W }
    have hlog : (m.logLine l).Consistent := h.agree.of_sameProcs (.of_eq rfl rfl) rfl
      fun q hq => h.agree.toPlaced.wf.cur hq
    have hag := unreserve_agree hlog i
    have hst : x.pid = -1 ↔ x.frameIndex = -1 := h.started hx
    refine h.of_pcb (y := y) hx ?_ ⟨rfl, rfl, rfl, rfl⟩ hst (fun hc => nomatch hc) ?_
    · exact hag.of_sameProcs (sameProcs_withPcb (m := (m.logLine l).setFrame i _) hx.2 rfl) rfl
        fun q hq => h.agree.toPlaced.wf.cur hq
    · -- the frame of another process is another frame
      intro q z hq hz hb
      refine hb.congr rfl rfl rfl fun g hg _ => ⟨unreserve_shape (m.logLine l) i g, ?_⟩
      have hgi : g ≠ i := by
        rintro rfl
        exact hq (h.agree.toPlaced.wf.ids hz hx (hg.processId.symm.trans hpage.processId))
      exact congrArg Frame.reserved (Function.update_of_ne hgi ..)
  clear := by
    intro m m' h hc
    rw [clearRecent_eq h.agree.toPlaced] at hc
    obtain rfl := Except.ok.inj hc
    refine h.of_frames (clearRecent_agree h.agree) rfl rfl fun f => ⟨cleared_shape _, ?_⟩
    show (cleared (m.RAM f)).reserved = _
    unfold cleared
    split_ifs <;> rfl
  launch := by
    intro m m' p x y clk i h hx hpid hi henough hm hy
    have hn := (h.started hx).mp hpid
    obtain ⟨m₁, hm₁, hl⟩ := h.agree.toPlaced.launch hx hn henough.1 clk
    obtain rfl := Except.ok.inj (hm.symm.trans hm₁)
    obtain ⟨m₂, hm₂, hst⟩ := initializePCB_eq clk h.agree.toPlaced hx hn
    obtain rfl := Except.ok.inj (hm.symm.trans hm₂)
    exact h.launch hx hl (hst.agree h.agree hx hn) hi hy
  create := by
    intro m d h hfresh hid hadm
    refine ⟨create_agree h.agree hfresh hadm hid, fun hz => ?_, fun hz hB => ?_⟩
    · rcases (live_create hfresh h.agree.toPlaced.wf).mp hz with hz | ⟨-, rfl⟩
      · exact h.started hz
      · exact ⟨fun _ => rfl, fun _ => rfl⟩
    · rcases (live_create hfresh h.agree.toPlaced.wf).mp hz with hz | ⟨-, rfl⟩
      · obtain ⟨hb, hL⟩ := h.backed hz hB
        exact ⟨hb.congr rfl rfl rfl fun _ _ _ => ⟨rfl, rfl⟩, hL⟩
      · exact nomatch hB
  finish := by
    intro m m' p x h hx hr
    have hfin := (h.agree.toPlaced.released hx hr).1
    refine h.of_live (hfin.agree h.agree hx) fun {q z} hz => ?_
    obtain ⟨hz', hq⟩ := hfin.live.mp hz
    refine ⟨hz', fun _ hb => hb.congr rfl rfl rfl fun g hg _ => ?_⟩
    have hne : (m.RAM g).processId ≠ x.id := fun he =>
      hq (h.agree.toPlaced.wf.ids hz' hx (hg.processId.symm.trans he))
    rw [hfin.RAM_of_ne hne]
    exact ⟨rfl, rfl⟩

/-- Nothing has been asked for at the start. -/
theorem init_allocated (L : Ptr → ℤ → Prop) : Mem.init.Allocated L where
  agree := init_consistent
  started hx := nomatch hx.1
  backed hx := nomatch hx.1

/-- **The page of a blocked process is resident**, in a reserved frame. -/
theorem Allocated.resident (h : m.Allocated L) (hx : m.Live p x) (hb : m.Backed x) :
    ∃ (f : Fin 32) (e : PTE), x.pendingFrame = f ∧ m.entry x x.pendingPage = some e ∧
      e.valid = true ∧ e.frameAddress = f ∧ (m.RAM f).reserved = true := by
  obtain ⟨f, hf, hpage, hres⟩ := hb
  obtain ⟨e, he, hval, hfa⟩ := h.agree.held (i := f) trivial hpage.occupied hpage.page hx
    hpage.processId
  rw [hpage.vpage] at he
  exact ⟨f, e, hf, he, hval, hfa, hres⟩

end Mem

end CpuScheduler
