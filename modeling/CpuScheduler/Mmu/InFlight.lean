import CpuScheduler.Mmu.Allocation

/-!
# Pages in flight

A demand fault maps the page at once, and its process sleeps for 10 or 20 ticks before
it learns of it. In between, the frame is kept by a flag, `reserved`, which is set in two
places, cleared in two others, and looked at by the scan of `fault_handler`.

`CpuScheduler.Mem.Guarded` says that the flag does what it is for, whether there are
frames enough or not: a process that waits for a frame has its page there, mapped and
reserved, and a frame that is reserved is waited for. The predicate is kept by all
memory operations (`CpuScheduler.Mem.kept_guarded`), as long as demand faults are for the
first 64 pages. As with `CpuScheduler.Mem.Allocated`, it has a parameter by which one
process can be followed while it is blocked.
-/

namespace CpuScheduler

/-- A process waits for a frame only while it is blocked, and it is blocked only once it
has a page table. -/
structure PCB.Orderly (x : PCB) : Prop where
  launched : x.frameIndex ≠ -1 → x.pid ≠ -1
  paged : x.state = .B → x.frameIndex ≠ -1
  both : x.pendingPage = -1 ↔ x.pendingFrame = -1
  idle : x.state ≠ .B → x.pendingFrame = -1

namespace Mem

open Fallible

variable {m m' m₁ : Mem} {p q : Ptr} {x y z : PCB} {f g i : Fin 32} {v t : ℤ} {c : Char} {w : Bool}
  {clk : Clk} {raw : List Char} {F : Ptr → ℤ → ℤ → ℤ → Prop}

/-- **What is waited for is reserved, and what is reserved is waited for.** A blocked
process satisfies `F` with its page, its frame and its time. -/
structure Guarded (F : Ptr → ℤ → ℤ → ℤ → Prop) (m : Mem) : Prop where
  agree : m.Consistent
  orderly : ∀ {p x}, m.Live p x → x.Orderly
  backed : ∀ {p x}, m.Live p x → x.pendingFrame ≠ -1 → m.Backed x
  used : ∀ {f}, (m.RAM f).reserved = true → ∃ p x, m.Live p x ∧ x.pendingFrame = f
  follow : ∀ {p x}, m.Live p x → x.state = .B → F p x.pendingPage x.pendingFrame x.unblockAt

/-- A process faults for one of the first 64 pages, and then it may wait for anything. -/
def Unfollowed (F : Ptr → ℤ → ℤ → ℤ → Prop) : Room := fun t p page _ =>
  t = .demand → page < 64 ∧ ∀ v f u, F p v f u

/-! ### Where a reservation comes from -/

/-- The frame that a page goes into was not reserved, -/
theorem PageIn.unreserved (h : PageIn m m' x v i w) (hm : m.Consistent) :
    (m.RAM i).reserved = false := by
  cases h with
  | free hocc _ => exact (hm.clean trivial hocc).2.2
  | evict _ _ hres _ _ _ _ => exact hres

/-- nor is one that a page table has gone into. -/
theorem TableIn.unreserved (h : TableIn m m' x i) (hm : m.Consistent) :
    (m'.RAM i).reserved = false := by
  cases h with
  | free hocc ha =>
    rw [ha.table]
    exact (hm.clean trivial hocc).2.2
  | evict _ _ hres _ _ he ha =>
    rw [ha.table]
    exact (congrArg Frame.reserved he.victim).trans hres

/-- The delay of a demand fault: 20 if a page is evicted that has been written to, 10
otherwise. -/
def demandDelay (RAM : Fin 32 → Frame) : ℤ :=
  match scan RAM with
  | .victim i => if (RAM i).M then 20 else 10
  | _ => 10

/-- What a demand fault makes of its process, and where its page goes. -/
structure Demanded (clk : Clk) (m m' : Mem) (p : Ptr) (x : PCB) (v : ℤ) (w : Bool) (z : PCB) :
    Prop where
  only : FramesOnly (m.withPcb p z) m'
  key : z.key = x.key
  pid : z.pid = x.pid
  state : z.state = .B
  wakes : ∃ site, z.unblockAt = clk site + demandDelay m.RAM
  page : (∃ i : Fin 32, z.pendingPage = v ∧ z.pendingFrame = i ∧ PageIn m m' x v i w ∧
      (m'.RAM i).reserved = true) ∨
    (scan m.RAM = .nothing ∧ z.pendingPage = -1 ∧ z.pendingFrame = -1 ∧ m'.RAM = m.RAM)

/-- **A demand fault for one of the first 64 pages** blocks its process and maps the page
into a frame that it reserves, if there is one. -/
theorem AgreeOn.demanded {e : PTE} (h : m.Consistent) (hx : m.Live p x) (hf : m.TableAt x f)
    (he : m.entry x v = some e) (hv : v < 64) (clk : Clk) (raw : List Char) (c : Char) :
    ∃ m' z, m.faultHandler clk x.id v .demand raw c = .ok m' ∧
      Demanded clk m m' p x v (c = 'w') z := by
  have hblocks : blocks .demand v = true := by simp only [blocks, hv, decide_true, Bool.and_true]
  have hblocked : ∀ t, blockedUntil x t v = { x with state := .B, unblockAt := t } := fun t => by
    rw [blockedUntil, if_pos hblocks]
  have hsmall : swapPage .demand v = v := by rw [swapPage_demand, if_pos hv]
  cases hs : scan m.RAM with
  | free i =>
    obtain ⟨m', hm', ho, hin, hres⟩ := faultHandler_demand_free clk raw (c := c) h.toPlaced hx hf he
      hs
    rw [hblocked] at ho
    have hclean : (m.RAM i).M = false := (h.clean trivial (scan_free hs)).2.1
    refine ⟨m', _, hm', ho, rfl, rfl, rfl, ⟨.faultDelay, ?_⟩, Or.inl ⟨i, rfl, rfl, hin, hres⟩⟩
    rw [demandDelay, hs, pageFaultDelay, hclean]
    rfl
  | victim i =>
    obtain ⟨m', hm', ho, hin, hres⟩ := faultHandler_demand_victim clk raw (c := c) h.toPlaced hx hf
      (hsmall.symm ▸ he) hs
    rw [hsmall, hblocked] at ho
    rw [hsmall] at hin
    refine ⟨m', _, hm', ho, rfl, rfl, rfl, ⟨.swapDelay, ?_⟩, Or.inl ⟨i, rfl, rfl, hin, hres⟩⟩
    rw [demandDelay, hs, pageFaultDelay]
  | nothing =>
    have hlost : lost clk x v = { x with
        state := .B, unblockAt := clk .faultTentative + 10, pendingPage := -1,
        pendingFrame := -1 } := by rw [lost, if_pos hblocks]
    refine ⟨_, lost clk x v, faultHandler_demand_nothing clk raw h.toPlaced.wf hx hs,
      framesOnly_scanned clk m p x v raw, lost_key clk x v, ?_, ?_, ⟨.faultTentative, ?_⟩,
      Or.inr ⟨hs, ?_, ?_, rfl⟩⟩ <;> rw [hlost]
    rw [demandDelay, hs]

/-! ### The predicate is kept -/

/-- The same frames, up to the entries of the page tables and the bits, and the same
processes. -/
theorem Guarded.of_frames (h : m.Guarded F) (hag : m'.Consistent) (hheap : m'.heap = m.heap)
    (hpcbs : m'.currentPCBs = m.currentPCBs)
    (hf : ∀ f, (m'.RAM f).shape = (m.RAM f).shape ∧ (m'.RAM f).reserved = (m.RAM f).reserved) :
    m'.Guarded F := by
  have hlive : ∀ {q z}, m'.Live q z ↔ m.Live q z := fun {q z} => by rw [Live, Live, hheap, hpcbs]
  refine ⟨hag, fun hz => h.orderly (hlive.mp hz), fun hz hp => ?_, fun {f} hres => ?_,
    fun hz => h.follow (hlive.mp hz)⟩
  · exact (h.backed (hlive.mp hz) hp).congr rfl rfl rfl fun f _ _ => hf f
  · obtain ⟨q, z, hz, hzf⟩ := h.used ((hf f).2 ▸ hres)
    exact ⟨q, z, hlive.mpr hz, hzf⟩

/-- One process has been written to, and the frames that are reserved for the others are
as they were. -/
theorem Guarded.of_pcb (h : m.Guarded F) (hx : m.Live p x) (hag : m'.Consistent)
    (ho : FramesOnly (m.withPcb p y) m') (hy : y.Orderly)
    (hback : y.pendingFrame ≠ -1 → m'.Backed y)
    (hfollow : y.state = .B → F p y.pendingPage y.pendingFrame y.unblockAt)
    (hothers : ∀ {q z}, q ≠ p → m.Live q z → m.Backed z → m'.Backed z)
    (hused : ∀ f : Fin 32, (m'.RAM f).reserved = true →
      y.pendingFrame = f ∨ ((m.RAM f).reserved = true ∧ x.pendingFrame ≠ f)) : m'.Guarded F := by
  have hcases : ∀ {q z}, m'.Live q z → (q = p ∧ z = y) ∨ (q ≠ p ∧ m.Live q z) := by
    intro q z hz
    have hz' := ho.live.mp hz
    by_cases hq : q = p
    · subst hq
      exact Or.inl ⟨rfl, hz'.unique (hx.withPcb y)⟩
    · exact Or.inr ⟨hq, hz'.1, (withPcb_heap_of_ne hq y).symm.trans hz'.2⟩
  refine ⟨hag, fun hz => ?_, fun hz hp => ?_, fun {f} hres => ?_, fun hz hB => ?_⟩
  · rcases hcases hz with ⟨rfl, rfl⟩ | ⟨-, hz⟩
    · exact hy
    · exact h.orderly hz
  · rcases hcases hz with ⟨rfl, rfl⟩ | ⟨hq, hz⟩
    · exact hback hp
    · exact hothers hq hz (h.backed hz hp)
  · rcases hused f hres with hyf | ⟨hold, hxf⟩
    · exact ⟨p, y, ho.live.mpr (hx.withPcb y), hyf⟩
    · -- the frame is waited for by somebody else
      obtain ⟨q, z, hz, hzf⟩ := h.used hold
      have hq : q ≠ p := by
        rintro rfl
        obtain rfl := hz.unique hx
        exact hxf hzf
      exact ⟨q, z, ho.live.mpr ⟨hz.1, (withPcb_heap_of_ne hq y).trans hz.2⟩, hzf⟩
  · rcases hcases hz with ⟨rfl, rfl⟩ | ⟨-, hz⟩
    · exact hfollow hB
    · exact h.follow hz hB

/-- A write of the scheduler to its own fields. -/
theorem Guarded.write (h : m.Guarded F) (hx : m.Live p x) (hw : x.Own y) :
    (m.withPcb p y).Guarded F := by
  have hord := h.orderly hx
  have hidle : y.state ≠ .B → x.pendingFrame = -1 := by
    intro hy
    by_cases hxB : x.state = .B
    · rcases hw.settled hxB with hB | hpage | hframe
      · exact absurd hB hy
      · exact hord.both.mp hpage
      · exact hframe
    · exact hord.idle hxB
  refine h.of_pcb hx ?_ (FramesOnly.refl _) ?_ (fun hp => ?_) (fun hB => ?_)
    (fun _ _ hb => hb.congr rfl rfl rfl fun _ _ _ => ⟨rfl, rfl⟩) fun f hres => ?_
  · exact h.agree.of_sameProcs (sameProcs_withPcb hx.2 hw.key) rfl
      fun q hq => h.agree.toPlaced.wf.cur hq
  · refine ⟨fun hf => ?_, fun hB => ?_, ?_, fun hB => ?_⟩
    · rw [hw.pid]
      exact hord.launched (key_frameIndex hw.key ▸ hf)
    · rw [key_frameIndex hw.key]
      exact hord.paged (hw.state hB)
    · rw [hw.pendingPage, hw.pendingFrame]
      exact hord.both
    · rw [hw.pendingFrame]
      exact hidle hB
  · exact (h.backed hx (hw.pendingFrame ▸ hp)).congr (key_id hw.key) hw.pendingPage hw.pendingFrame
      fun _ _ _ => ⟨rfl, rfl⟩
  · rw [hw.pendingPage, hw.pendingFrame, hw.unblockAt]
    exact h.follow hx (hw.state hB)
  · rw [hw.pendingFrame]
    exact or_iff_not_imp_left.mpr fun hne => ⟨hres, hne⟩

/-- What a demand fault does is seen from before its process is blocked. -/
theorem Demanded.of_write (hd : Demanded clk (m.withPcb p y) m' p y v w z) (hx : m.Live p x)
    (hk : y.key = x.key) (hpid : y.pid = x.pid) : Demanded clk m m' p x v w z := by
  have hsp : SameProcs m (m.withPcb p y) := sameProcs_withPcb hx.2 hk
  have honly := hd.only
  rw [withPcb_withPcb] at honly
  refine ⟨honly, hd.key.trans hk, hd.pid.trans hpid, hd.state, hd.wakes, hd.page.imp_left ?_⟩
  rintro ⟨i, hzp, hzf, hin, hres⟩
  exact ⟨i, hzp, hzf, hin.congr hsp rfl (key_id hk) (key_frameIndex hk), hres⟩

/-- What the fault handler does for a process that has just been blocked. -/
theorem Guarded.demanded {c' : Char} (h : m.Guarded F) (hx : m.Live p x)
    (hmiss : m.check p v c' = .ok (.miss, m)) (hv : v < 64)
    (hown : x.Own { y with state := x.state })
    (hf : (m.withPcb p y).faultHandler clk x.id v .demand raw c = .ok m') :
    ∃ z, Demanded clk m m' p x v (c = 'w') z := by
  obtain ⟨f, e, htab, he, -⟩ := h.agree.toPlaced.missed hx hmiss
  have hk : y.key = x.key := hown.key
  have hag : (m.withPcb p y).Consistent :=
    h.agree.of_sameProcs (sameProcs_withPcb hx.2 hk) rfl fun q hq => h.agree.toPlaced.wf.cur hq
  have hent : (m.withPcb p y).entry y v = some e := by
    rw [entry_withPcb, entry_eq_of_index (key_frameIndex hk), he]
  obtain ⟨m₁, z, hm₁, hd⟩ := AgreeOn.demanded hag (hx.withPcb y)
    (htab.congr rfl (key_id hk) (key_limit hk) (key_frameIndex hk)) hent
    hv clk raw c
  rw [key_id hk] at hm₁
  obtain rfl := Except.ok.inj (hf.symm.trans hm₁)
  exact ⟨z, hd.of_write hx hk hown.pid⟩

/-- **A demand fault**: the frame it takes was not reserved, and is now waited for. -/
theorem Guarded.demand {e : PTE} (h : m.Guarded F) (hx : m.Live p x) (hst : x.state ≠ .B)
    (hf : m.TableAt x f) (he : m.entry x v = some e) (hinv : e.valid = false)
    (hroom : ∀ v f u, F p v f u) (hd : Demanded clk m m' p x v w z) : m'.Guarded F := by
  have hord := h.orderly hx
  obtain ⟨-, -, -, h0, -⟩ := h.agree.entry_bounds hx he
  have hsp := (sameProcs_withPcb hx.2 hd.key).trans hd.only.sameProcs
  have hcur := hsp.cur hd.only.cur h.agree.toPlaced.wf
  have hidle := hord.idle hst
  rcases hd.page with ⟨i, hzp, hzf, hin, hres⟩ | ⟨-, hzp, hzf, hram⟩
  · have hpage := hin.loaded.2.1
    have hne : z.pendingFrame ≠ -1 := by omega
    refine h.of_pcb hx (hin.agree h.agree hsp hcur hx he hinv) hd.only ?_ (fun _ => ?_)
      (fun _ => hroom _ _ _) (fun {q u} _ _ hb => ?_) fun g hg => ?_
    · refine ⟨fun _ => ?_, fun _ => ?_, ?_,
        fun hB => absurd hd.state hB⟩
      · rw [hd.pid]
        exact hord.launched hf.ne_neg_one
      · rw [key_frameIndex hd.key]
        exact hf.ne_neg_one
      · omega
    · rw [← key_id hd.key] at hpage
      exact ⟨i, hzf, hzp ▸ hpage, hres⟩
    · exact hb.congr rfl rfl rfl fun g hg hg' => hin.frame_of_ne (hin.ne hg.occupied hg')
    · by_cases hgi : g = i
      · exact Or.inl (hgi ▸ hzf)
      · refine Or.inr ⟨(hin.frame_of_ne hgi).2 ▸ hg, ?_⟩
        rw [hidle]
        omega
  · -- there was no frame, and the process waits for nothing
    refine h.of_pcb hx ?_ hd.only ?_ (fun hne => absurd hzf hne) (fun _ => hroom _ _ _)
      (fun _ _ hb => hb.congr rfl rfl rfl fun g _ _ => ?_) fun g hg => ?_
    · exact h.agree.of_sameProcs hsp hram hcur
    · refine ⟨fun _ => ?_, fun _ => ?_, ?_,
        fun hB => absurd hd.state hB⟩
      · rw [hd.pid]
        exact hord.launched hf.ne_neg_one
      · rw [key_frameIndex hd.key]
        exact hf.ne_neg_one
      · rw [hzp, hzf]
    · rw [hram]
      exact ⟨rfl, rfl⟩
    · refine Or.inr ⟨hram ▸ hg, ?_⟩
      rw [hidle]
      omega

/-- **A process that starts**: its page table and its page 0 go into frames that are not
reserved. -/
theorem Guarded.launch {k : ℤ} (h : m.Guarded F) (hx : m.Live p x) (hpid : x.pid = -1) (hk : k ≠ -1)
    (hm : m.initializePCB clk p = .ok m') (hy : m'.heap p = some y) :
    (m'.withPcb p { y with lState := .start, pid := k }).Guarded F := by
  have hord := h.orderly hx
  have hn : x.frameIndex = -1 := by
    by_contra hne
    exact hord.launched hne hpid
  have hst : x.state ≠ .B := fun hB => hord.paged hB hn
  obtain ⟨m₁, hm₁, hstart⟩ := initializePCB_eq clk h.agree.toPlaced hx hn
  obtain rfl := Except.ok.inj (hm.symm.trans hm₁)
  have hag' := hstart.agree h.agree hx hn
  let u : PCB := { y with lState := .start, pid := k }
  -- what is known of the process, whichever frames it got
  have hdone : y.state = x.state → y.pendingPage = x.pendingPage →
      y.pendingFrame = x.pendingFrame → FramesOnly (m.withPcb p y) m' →
      (∀ g, (m.RAM g).occupied = true → (m.RAM g).reserved = true →
        (m'.RAM g).shape = (m.RAM g).shape ∧ (m'.RAM g).reserved = (m.RAM g).reserved) →
      (∀ g, (m'.RAM g).reserved = true → (m.RAM g).reserved = true) →
      (m'.withPcb p u).Guarded F := by
    intro hys hyp hyf ho hkeep hres
    have hu : FramesOnly (m.withPcb p u) (m'.withPcb p u) := by
      have := ho.withPcb p u
      rwa [withPcb_withPcb] at this
    have hus : u.state ≠ .B := fun hB => hst (hys ▸ hB)
    have huf : u.pendingFrame = -1 := hyf.trans (hord.idle hst)
    refine h.of_pcb hx ?_ hu ?_ (fun hne => absurd huf hne) (fun hB => absurd hB hus)
      (fun _ _ hb => hb.congr rfl rfl rfl fun g hg hg' => hkeep g hg.occupied hg') fun g hg => ?_
    · exact hag'.of_sameProcs (sameProcs_withPcb hy rfl) rfl fun q hq => hag'.toPlaced.wf.cur hq
    · refine ⟨fun _ => hk, fun hB => absurd hB hus, ?_, fun _ => huf⟩
      show y.pendingPage = -1 ↔ y.pendingFrame = -1
      rw [hyp, hyf]
      exact hord.both
    · refine Or.inr ⟨hres g hg, ?_⟩
      rw [hord.idle hst]
      omega
  cases hstart with
  | full _ he =>
    subst he
    obtain rfl := Option.some.inj (hx.2.symm.trans hy)
    refine hdone rfl rfl rfl ?_ (fun _ _ _ => ⟨rfl, rfl⟩) fun _ hg => hg
    rw [withPcb_self hx.2]
    exact FramesOnly.refl _
  | tableOnly i hin ho _ =>
    obtain rfl : { x with frameIndex := i } = y := by
      rw [ho.heap, withPcb_heap_self] at hy
      exact Option.some.inj hy
    refine hdone rfl rfl rfl ho (fun g hocc hg => hin.frame_of_ne (hin.ne hocc hg)) fun g hg => ?_
    have hgi : g ≠ i := by
      rintro rfl
      exact nomatch (hin.unreserved h.agree).symm.trans hg
    exact (hin.frame_of_ne hgi).2 ▸ hg
  | @both i j y' m₁ hin ho hy' hpage ho' hresj =>
    obtain rfl : y' = y := by
      rw [ho'.heap, withPcb_heap_self] at hy
      exact Option.some.inj hy
    have hag₁ := hin.agree h.agree hx hn ho
    have hsame : y'.state = x.state ∧ y'.pendingPage = x.pendingPage ∧
        y'.pendingFrame = x.pendingFrame := by
      rcases hy' with rfl | ⟨t, rfl⟩ <;> exact ⟨rfl, rfl, rfl⟩
    refine hdone hsame.1 hsame.2.1 hsame.2.2 ho' (fun g hocc hg => ?_) fun g hg => ?_
    · obtain ⟨hs, hr⟩ := hin.frame_of_ne (hin.ne hocc hg)
      obtain ⟨hs', hr'⟩ := hpage.frame_of_ne (hpage.ne ((Frame.shape_eq hs).1.trans hocc)
        (hr.trans hg))
      exact ⟨hs'.trans hs, hr'.trans hr⟩
    · have hgj : g ≠ j := by
        rintro rfl
        exact nomatch (hresj.trans (hpage.unreserved hag₁)).symm.trans hg
      have hg₁ : (m₁.RAM g).reserved = true := (hpage.frame_of_ne hgj).2 ▸ hg
      have hgi : g ≠ i := by
        rintro rfl
        exact nomatch (hin.unreserved h.agree).symm.trans hg₁
      exact (hin.frame_of_ne hgi).2 ▸ hg₁

/-- **`checkBlockEnd`** gives back the frame its process waited for. -/
theorem Guarded.unblock {l : MemLine} (h : m.Guarded F) (hx : m.Live p x)
    (hm : (m.logLine l).freeReserved x.pendingFrame = .ok m') :
    (m'.withPcb p { x with pendingPage := -1, pendingFrame := -1, state := .W }).Guarded F := by
  obtain ⟨i, hi, rfl⟩ := freeReserved_eq_ok hm
  obtain ⟨j, hj, hpage, -⟩ := h.backed hx (by omega)
  obtain rfl := coe_inj (hi.symm.trans hj)
  have hord := h.orderly hx
  let y : PCB := { x with pendingPage := -1, pendingFrame := -1, state := .W }
  have hlog : (m.logLine l).Consistent := h.agree.of_sameProcs (.of_eq rfl rfl) rfl
    fun q hq => h.agree.toPlaced.wf.cur hq
  have hag := unreserve_agree hlog i
  refine h.of_pcb (y := y) hx ?_ ⟨rfl, rfl, rfl, rfl⟩
    ⟨hord.launched, (fun hB => nomatch hB), Iff.rfl, fun _ => rfl⟩
    (fun hne => absurd rfl hne) (fun hB => nomatch hB) ?_ fun f hres => Or.inr ?_
  · exact hag.of_sameProcs (sameProcs_withPcb (m := (m.logLine l).setFrame i _) hx.2 rfl) rfl
      fun q hq => h.agree.toPlaced.wf.cur hq
  · -- the frame of another process is another frame
    intro q z hq hz hb
    refine hb.congr rfl rfl rfl fun g hg _ => ⟨unreserve_shape (m.logLine l) i g, ?_⟩
    have hgi : g ≠ i := by
      rintro rfl
      exact hq (h.agree.toPlaced.wf.ids hz hx (hg.processId.symm.trans hpage.processId))
    exact congrArg Frame.reserved (Function.update_of_ne hgi ..)
  · have hfi : f ≠ i := by
      rintro rfl
      have hself : (((m.logLine l).setFrame f fun fr => { fr with reserved := false }).RAM
          f).reserved = false := by rw [setFrame_RAM, Function.update_self]
      exact nomatch hself.symm.trans hres
    refine ⟨?_, fun hf => hfi (coe_inj (hf.symm.trans hi))⟩
    rw [withPcb_RAM, setFrame_RAM, Function.update_of_ne hfi] at hres
    exact hres

/-- **What is reserved is waited for**, whatever the scheduler does with the memory. -/
theorem kept_guarded (F : Ptr → ℤ → ℤ → ℤ → Prop) :
    Kept (Guarded F) (Unfollowed F) Paged where
  write h hx hw := h.write hx hw
  choose h hcur := h.of_frames (h.agree.of_sameProcs (.of_eq rfl rfl) rfl hcur) rfl rfl
    fun _ => ⟨rfl, rfl⟩
  access := by
    intro m m' p x v c r h hx hc
    obtain ⟨f, hf, ⟨-, rfl, -⟩ | ⟨pt, e, hpt, he, ⟨-, hval, j, hj, rfl⟩ | ⟨-, -, rfl⟩⟩⟩ :=
      check_ok hx.2 hc
    · exact h
    · have htab := h.agree.toPlaced.table_at hx hf
      exact h.of_frames (touched_agree h.agree hx htab hpt he hval hj) rfl rfl fun g =>
        ⟨touched_shape hpt g, touched_reserved g⟩
    · exact h
  block := by
    intro m m' p x y clk v raw c h hx hst hmiss hroom _ hown hf
    obtain ⟨f, e, htab, he, hinv, -⟩ := h.agree.toPlaced.missed hx hmiss
    obtain ⟨z, hd⟩ := h.demanded hx hmiss (hroom rfl).1 hown hf
    exact h.demand hx hst htab he hinv (hroom rfl).2 hd
  unblock h hx _ hf := h.unblock hx hf
  clear := by
    intro m m' h hc
    rw [clearRecent_eq h.agree.toPlaced] at hc
    obtain rfl := Except.ok.inj hc
    refine h.of_frames (clearRecent_agree h.agree) rfl rfl fun f => ⟨cleared_shape _, ?_⟩
    show (cleared (m.RAM f)).reserved = _
    unfold cleared
    split_ifs <;> rfl
  launch h hx hpid hi _ hm hy := h.launch hx hpid hi hm hy
  create := by
    intro m d h hfresh hid hadm
    have hlive : ∀ {q z}, (m.create d).Live q z ↔ m.Live q z ∨ (q = m.brk ∧ z = createPCB d) :=
      live_create hfresh h.agree.toPlaced.wf
    have hnew : (createPCB d).Orderly := ⟨(fun hc => absurd rfl hc), (fun hB => nomatch hB),
      Iff.rfl, fun _ => rfl⟩
    refine ⟨create_agree h.agree hfresh hadm hid, fun hz => ?_, fun hz hp => ?_, fun {f} hres => ?_,
      fun hz hB => ?_⟩
    · rcases hlive.mp hz with hz | ⟨-, rfl⟩
      · exact h.orderly hz
      · exact hnew
    · rcases hlive.mp hz with hz | ⟨-, rfl⟩
      · exact (h.backed hz hp).congr rfl rfl rfl fun _ _ _ => ⟨rfl, rfl⟩
      · exact absurd rfl hp
    · obtain ⟨q, z, hz, hzf⟩ := h.used hres
      exact ⟨q, z, hlive.mpr (Or.inl hz), hzf⟩
    · rcases hlive.mp hz with hz | ⟨-, rfl⟩
      · exact h.follow hz hB
      · exact nomatch hB
  finish := by
    intro m m' p x h hx hr
    have hfin := (h.agree.toPlaced.released hx hr).1
    refine ⟨hfin.agree h.agree hx, fun hz => h.orderly (hfin.live.mp hz).1, fun {q z} hz hp => ?_,
      fun {f} hres => ?_, fun hz => h.follow (hfin.live.mp hz).1⟩
    · obtain ⟨hz', hq⟩ := hfin.live.mp hz
      refine (h.backed hz' hp).congr rfl rfl rfl fun g hg _ => ?_
      have hne : (m.RAM g).processId ≠ x.id := fun he =>
        hq (h.agree.toPlaced.wf.ids hz' hx (hg.processId.symm.trans he))
      rw [hfin.RAM_of_ne hne]
      exact ⟨rfl, rfl⟩
    · -- the frames of the process have been cleared
      have hne : (m.RAM f).processId ≠ x.id := by
        intro he
        rw [hfin.RAM, if_pos he] at hres
        exact nomatch hres
      rw [hfin.RAM_of_ne hne] at hres
      obtain ⟨q, z, hz, hzf⟩ := h.used hres
      refine ⟨q, z, hfin.live.mpr ⟨hz, ?_⟩, hzf⟩
      rintro rfl
      obtain rfl := hz.unique hx
      obtain ⟨g, hg, hpage, -⟩ := h.backed hz (by omega)
      obtain rfl := coe_inj (hzf.symm.trans hg)
      exact hne hpage.processId

/-- Nobody waits at the start. -/
theorem init_guarded (F : Ptr → ℤ → ℤ → ℤ → Prop) : Mem.init.Guarded F where
  agree := init_consistent
  orderly hx := nomatch hx.1
  backed hx := nomatch hx.1
  used hres := nomatch hres
  follow hx := nomatch hx.1

end Mem

end CpuScheduler
