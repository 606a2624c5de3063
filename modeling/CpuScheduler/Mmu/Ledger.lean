import CpuScheduler.Lib.Ledger
import CpuScheduler.Mmu.InFlight

/-!
# What `memory.log` says

`memory.log` is a ledger (`CpuScheduler.Ledger`): its cells are the frames, its parties the
processes, by their ids, and what is put into a frame is a page, by its address on the disk. A
page fault asks for a page, and the line that tells of a loaded page puts it into its frame. The
other lines do not say which page they are about (`CpuScheduler.MemLine.entry`).

The line for a page that a process has asked for is not written by the fault, which maps the page
at once, but by `checkBlockEnd`, 10 or 20 ticks later. Until then the frame is reserved, and so
the ledger is right about the frames that are not reserved (`CpuScheduler.Mem.Told`). This is kept
by everything the scheduler does to the memory (`CpuScheduler.Mem.kept_told`).
-/

namespace CpuScheduler

open Fallible

/-- What a line says about the frames, where `base` is the place of each process on the disk. -/
def MemLine.entry (base : ℤ → ℤ) : MemLine → Option (Ledger.Entry ℤ ℤ ℤ)
  | .allocated _ => none
  | .pageFault address pid => some (.ask pid (base pid + (parseHexaAddress address).page))
  | .swappedOut _ => none
  | .loaded _ disk pid frame => some (.put frame pid disk)

namespace Mem

/-- `memory.log` as a ledger. -/
def ledger (base : ℤ → ℤ) (m : Mem) : List (Ledger.Entry ℤ ℤ ℤ) :=
  m.memoryLog.filterMap (MemLine.entry base)

/-- **The ledger is right** about every page in a frame that is not reserved. -/
def Right (base : ℤ → ℤ) (m : Mem) : Prop :=
  ∀ ⦃id v⦄ ⦃i : Fin 32⦄, m.PageAt id v i → (m.RAM i).reserved = false →
    Ledger.contents (m.ledger base) (i : ℤ) = some (id, base id + v)

/-- The ledger is right, and a process that waits for a frame has asked for what is in it. Nothing
is loaded that was not asked for, but for page 0 of a process that starts. -/
structure Told (base : ℤ → ℤ) (m : Mem) : Prop where
  guarded : m.Guarded fun _ _ _ _ => True
  bases : ∀ {p x}, m.Live p x → x.base = base x.id
  holds : m.Right base
  waits : ∀ {p x}, m.Live p x → x.pendingFrame ≠ -1 →
    Ledger.asked (m.ledger base) x.id = some (base x.id + x.pendingPage)
  answered : Ledger.Answered base (m.ledger base)

variable {m m' m₁ : Mem} {p q : Ptr} {x y z : PCB} {f g i : Fin 32} {v t id page : ℤ} {c : Char}
  {clk : Clk} {raw : List Char} {base : ℤ → ℤ} {l : List (Ledger.Entry ℤ ℤ ℤ)}
  {type : FaultType}

theorem ledger_logLine (base : ℤ → ℤ) (m : Mem) (line : MemLine) :
    (m.logLine line).ledger base = m.ledger base ++ (line.entry base).toList := by
  rw [ledger, logLine, List.filterMap_append]
  cases he : line.entry base with
  | none => rw [List.filterMap_cons_none he]; rfl
  | some e => rw [List.filterMap_cons_some he]; rfl

theorem ledger_allocated (m : Mem) (i : Fin 32) :
    (m.logLine (.allocated i)).ledger base = m.ledger base :=
  (ledger_logLine base m _).trans (List.append_nil _)

theorem ledger_logIf (base : ℤ → ℤ) (m : Mem) (b : Bool) (line : MemLine) :
    (m.logIf b line).ledger base =
      m.ledger base ++ if b then (line.entry base).toList else [] := by
  cases b with
  | false => exact (List.append_nil _).symm
  | true => exact ledger_logLine base m line

/-! ### What the functions write -/

/-- A computation that writes these entries. -/
abbrev Adds (base : ℤ → ℤ) (l : List (Ledger.Entry ℤ ℤ ℤ)) (m : Mem) (r : Except Fault Mem) :
    Prop :=
  Outcome (fun m' => m'.ledger base = m.ledger base ++ l) NotUnderflow r

theorem adds_nil (m : Mem) : Adds base [] m (.ok m) := (List.append_nil _).symm

/-- A computation that starts without writing anything. -/
theorem Adds.bind {r : Except Fault Mem} {k : Mem → Except Fault Mem} (h : Adds base [] m r)
    (hk : ∀ m', Adds base l m' (k m')) : Adds base l m (r >>= k) :=
  Outcome.bind h fun m₁ h₁ => (hk m₁).mono fun m₂ h₂ => by rw [h₂, h₁, List.append_nil]

theorem Adds.of_eq {r : Except Fault Mem} (h : Adds base l m₁ r)
    (h₁ : m₁.ledger base = m.ledger base) : Adds base l m r :=
  h.mono fun m' h' => by rw [h', h₁]

/-- A computation that only starts by writing something. -/
theorem Adds.after {r : Except Fault Mem} (h : Adds base [] m₁ r)
    (h₁ : m₁.ledger base = m.ledger base ++ l) : Adds base l m r :=
  h.mono fun m' h' => by rw [h', List.append_nil, h₁]

theorem setPcb_adds (m : Mem) (p : Ptr) (g : PCB → PCB) : Adds base [] m (m.setPcb p g) :=
  (pcb_outcome m p).bind fun _ _ => (List.append_nil _).symm

theorem setPcbIf_adds (m : Mem) (b : Bool) (p : Ptr) (g : PCB → PCB) :
    Adds base [] m (m.setPcbIf b p g) := by
  cases b with
  | false => exact adds_nil m
  | true => exact setPcb_adds m p g

theorem writePte_adds (m : Mem) (table v : ℤ) (g : PTE → PTE) :
    Adds base [] m (m.writePte table v g) :=
  (frameAt_outcome table).bind fun f _ => (tableAt_outcome m f).bind fun pt _ =>
    (entryAt_outcome pt v).bind fun _ _ => (List.append_nil _).symm

theorem putPageInFrame_adds (m : Mem) (id page : ℤ) (i : Fin 32) (c : Char) :
    Adds base [] m (m.putPageInFrame id page i c) := by
  rw [putPageInFrame]
  refine Adds.of_eq ?_ (ledger_allocated m i)
  refine (getProcess_outcome _ id).bind fun r _ => ?_
  cases r with
  | none => exact adds_nil _
  | some owner =>
    refine (pcb_outcome _ owner).bind fun o _ => Outcome.ite (fun _ => adds_nil _) fun _ => ?_
    exact writePte_adds _ _ _ _

theorem definePageTable_adds (m : Mem) (id : ℤ) (i : Fin 32) :
    Adds base [] m (m.definePageTable id i) := by
  rw [definePageTable]
  refine Adds.of_eq ?_ (ledger_allocated m i)
  refine (getProcess_outcome _ id).bind fun r _ => ?_
  cases r with
  | none => exact fun h => by simp at h
  | some owner =>
    refine (pcb_outcome _ owner).bind fun o _ => Outcome.ite (fun _ h => by simp at h) fun _ => ?_
    exact setPcb_adds _ _ _

theorem invalidate_adds (m : Mem) (i : Fin 32) : Adds base [] m (m.invalidate i) := by
  refine (getProcess_outcome m _).bind fun r _ => ?_
  cases r with
  | none => exact adds_nil m
  | some owner =>
    exact (pcb_outcome m owner).bind fun o _ => Outcome.ite (fun _ => writePte_adds m _ _ _)
      fun _ => adds_nil m

theorem blockOwner_adds (clk : Clk) (m : Mem) (owner : Option Ptr) (page : ℤ) (type : FaultType) :
    Adds base [] m (m.blockOwner clk owner page type) := by
  cases owner with
  | none => exact adds_nil m
  | some p => exact setPcbIf_adds m _ p _

theorem delayOwner_adds (clk : Clk) (m : Mem) (owner : Option Ptr) (page : ℤ) (i : Fin 32) :
    Adds base [] m (m.delayOwner clk owner page i) := by
  cases owner with
  | none => exact adds_nil m
  | some p => exact setPcbIf_adds m _ p _

theorem fillFree_adds (clk : Clk) (m : Mem) (owner : Option Ptr) (id page : ℤ) (type : FaultType)
    (i : Fin 32) (c : Char) : Adds base [] m (m.fillFree clk owner id page type i c) := by
  cases type with
  | pageTable => exact definePageTable_adds m id i
  | demand =>
    exact Adds.bind (delayOwner_adds clk (m.setFrame i _) owner page i)
      fun m' => putPageInFrame_adds m' id page i c
  | firstPage =>
    exact (delayOwner_adds clk m owner page i).bind fun m' => putPageInFrame_adds m' id page i c

/-- **Page 0 of a process that starts is told of at once**, and no other page is. -/
theorem replace_adds (base : ℤ → ℤ) (m : Mem) (clk : Clk) (t id page : ℤ) (p : Ptr) (i : Fin 32)
    (type : FaultType) (c : Char) :
    Outcome (fun m' => ∃ x, m.heap p = some x ∧ m'.ledger base = m.ledger base ++
      if type = .firstPage then [.put i x.id (x.base + page)] else []) NotUnderflow
      (m.replace clk t id p i page type c) := by
  rw [replace]
  refine (pcb_outcome m p).bind fun x hx => ?_
  have hlog := ledger_logIf base m (decide (type = .firstPage))
    (.loaded (clk .swapLog) (x.base + page) x.id i)
  simp only [decide_eq_true_eq] at hlog
  have hrest : ∀ {r}, Adds base [] _ r → Outcome (fun m' => ∃ x, m.heap p = some x ∧
      m'.ledger base = m.ledger base ++
        if type = .firstPage then [.put i x.id (x.base + page)] else []) NotUnderflow r :=
    fun h => (h.after hlog).mono fun m' hm => ⟨x, hx, hm⟩
  refine hrest ((setPcbIf_adds _ _ p _).bind fun m₂ => ?_)
  exact (writePte_adds m₂ _ _ _).bind fun m₃ => setPcbIf_adds (m₃.setFrame i _) _ p _

theorem ledger_swappedOut (m : Mem) (b : Bool) (i : Fin 32) :
    (m.logIf b (.swappedOut i)).ledger base = m.ledger base := by
  rw [ledger_logIf]
  cases b <;> exact List.append_nil _

theorem swap_adds (clk : Clk) (m : Mem) (id page : ℤ) (i : Fin 32) (c : Char)
    (ht : type ≠ .firstPage) : Adds base [] m (m.swap clk id i page type c) := by
  rw [swap]
  refine (invalidate_adds m i).bind fun m₁ => ?_
  refine Outcome.ite (fun _ => definePageTable_adds m₁ id i) fun _ => ?_
  refine Adds.of_eq ?_
    (ledger_swappedOut m₁ (decide ((m₁.RAM i).M = true ∧ type ≠ .firstPage)) i)
  refine (getProcess_outcome _ id).bind fun r _ => ?_
  cases r with
  | none => exact adds_nil _
  | some owner =>
    refine (replace_adds base _ clk _ id page owner i type c).mono fun m' hm => ?_
    obtain ⟨x, -, hm⟩ := hm
    rw [hm, if_neg ht]

theorem takeFree_adds (clk : Clk) (m : Mem) (owner : Option Ptr) (id page : ℤ) (i : Fin 32)
    (c : Char) (ht : type ≠ .firstPage) :
    Adds base [] m (m.takeFree clk owner id page type i c) := by
  rw [takeFree]
  refine (fillFree_adds clk m owner id page type i c).bind fun m₁ => ?_
  cases owner with
  | none => exact adds_nil _
  | some p =>
    refine (setPcbIf_adds m₁ _ p _).bind fun m₂ => (pcb_outcome m₂ p).bind fun o _ => ?_
    rw [decide_eq_false ht]
    exact adds_nil m₂

/-- **A demand fault asks for its page**, and says no more. -/
theorem faultHandler_adds (base : ℤ → ℤ) (clk : Clk) (m : Mem) (id page : ℤ) (raw : List Char)
    (c : Char) (ht : type ≠ .firstPage) :
    Adds base (if type = .demand then [.ask id (base id + (parseHexaAddress raw).page)] else []) m
      (m.faultHandler clk id page type raw c) := by
  rw [faultHandler]
  refine (getProcess_outcome m id).bind fun owner _ => ?_
  refine (blockOwner_adds clk m owner page type).bind fun m₁ => ?_
  have hlog := ledger_logIf base m₁ (decide (type = .demand)) (.pageFault raw id)
  simp only [decide_eq_true_eq] at hlog
  refine Adds.after ?_ hlog
  dsimp only
  cases scan (m₁.logIf (type = .demand) (.pageFault raw id)).RAM with
  | free i => exact takeFree_adds clk _ owner id page i c ht
  | victim i => exact swap_adds clk _ id page i c ht
  | nothing => exact adds_nil _

/-! ### Page 0 of a process that starts -/

/-- **The line names the frame** that page 0 has gone into. -/
theorem faultHandler_firstPage_adds (base : ℤ → ℤ) (clk : Clk) (raw : List Char)
    (h : m.Placed Everywhere) (hx : m.Live p x) (hf : m.TableAt x f) :
    m.faultHandler clk x.id 0 .firstPage raw c = .ok m ∨
      ∃ (i : Fin 32) (m' : Mem), m.faultHandler clk x.id 0 .firstPage raw c = .ok m' ∧
        PageIn m m' x 0 i (c = 'w') ∧ m'.ledger base = m.ledger base ++ [.put i x.id x.base] := by
  obtain ⟨e, he⟩ := hf.entry_some le_rfl (v := 0) (by have := h.limits hx; omega)
  rw [faultHandler_other_scan (by simp) h.wf hx]
  cases hs : scan m.RAM with
  | nothing => exact Or.inl rfl
  | victim i =>
    obtain ⟨hpte, hres, hocc⟩ := scan_victim hs
    obtain ⟨m', hswap, -, hin, -⟩ := swap_firstPage_eq clk (c := c) h hx hf (hocc i) hpte hres he
    refine Or.inr ⟨i, m', hswap, hin, ?_⟩
    obtain ⟨q, z, m₁, -, -, -, hinv, hlost, -⟩ := invalidate_eq h (hocc i) hpte
    have hlog := hlost.trans (framesOnly_logIf m₁
      (decide ((m₁.RAM i).M = true ∧ FaultType.firstPage ≠ .firstPage)) (.swappedOut i))
    have hrep := hswap
    rw [swap, hinv, ok_bind, if_neg (by simp)] at hrep
    simp only [getProcess_live (hlog.wf h.wf) (hlog.live.mpr hx), ok_bind] at hrep
    obtain ⟨x', hx', hledger⟩ := (replace_adds base _ clk _ x.id 0 p i .firstPage c).of_ok hrep
    have hself : x' = x := Option.some.inj (hx'.symm.trans (hlog.live.mpr hx).2)
    rw [hledger, hself, ledger_swappedOut, (invalidate_adds m i).of_ok hinv, if_pos rfl,
      List.append_nil, add_zero]
  | free i =>
    obtain ⟨m', hput, honly, hld, -⟩ := delay_put_eq clk (c := c) h.wf hx hf
      (h.free trivial (scan_free hs)) he
    have hfill : m.fillFree clk (some p) x.id 0 .firstPage i c = .ok m' := hput
    have hpcb : m'.pcb p = .ok (delayed clk x (m.pageFaultDelay i) 0) :=
      pcb_eq (by rw [honly.heap, withPcb_heap_self])
    have hline : ((m'.logLine (.loaded (clk .faultLog) (x.base + 0) x.id i)).ledger base) =
        m.ledger base ++ [.put i x.id x.base] := by
      rw [ledger_logLine, (fillFree_adds clk m (some p) x.id 0 .firstPage i c).of_ok hfill,
        List.append_nil, add_zero]
      rfl
    refine Or.inr ⟨i, m'.logLine (.loaded (clk .faultLog) (x.base + 0) x.id i), ?_,
      .free (scan_free hs) (hld.congr_RAM rfl rfl), hline⟩
    simp only [takeFree, hfill, ok_bind, setPcbIf, reduceCtorEq, decide_false,
      Bool.false_eq_true, if_false, hpcb, logIf, decide_true, if_true]
    rfl

/-! ### What a process is created with -/

theorem bases_withPcb (h : ∀ {q z}, m.Live q z → z.base = base z.id) (hx : m.Live p x)
    (hb : y.base = x.base) (hid : y.id = x.id) (hz : (m.withPcb p y).Live q z) :
    z.base = base z.id := by
  by_cases hq : q = p
  · subst hq
    rw [hz.unique (hx.withPcb y), hb, hid]
    exact h hx
  · exact h ⟨hz.1, (withPcb_heap_of_ne hq y).symm.trans hz.2⟩

theorem bases_sameCore (h : ∀ {q z}, m.Live q z → z.base = base z.id) (hs : SameCore m m')
    (hz : m'.Live q z) : z.base = base z.id := by
  obtain ⟨w, hw, hc⟩ := hs.pcb hz.2
  have hbase : z.core.base = w.core.base := congrArg PCB.base hc
  exact hbase.trans ((h ⟨hs.pcbs ▸ hz.1, hw⟩).trans (by rw [core_id hc]))

/-- Who is live once one process has been written to. -/
theorem FramesOnly.live_cases (ho : FramesOnly (m.withPcb p y) m') (hx : m.Live p x)
    (hz : m'.Live q z) : (q = p ∧ z = y) ∨ (q ≠ p ∧ m.Live q z) := by
  have hz' := ho.live.mp hz
  by_cases hq : q = p
  · subst hq
    exact Or.inl ⟨rfl, hz'.unique (hx.withPcb y)⟩
  · exact Or.inr ⟨hq, hz'.1, (withPcb_heap_of_ne hq y).symm.trans hz'.2⟩

/-! ### The ledger stays right -/

/-- Nothing is said, and nothing goes into a frame. -/
theorem Right.quiet (h : m.Right base) (hlog : m'.ledger base = m.ledger base)
    (hframe : ∀ {id v} {i : Fin 32}, m'.PageAt id v i → (m'.RAM i).reserved = false →
      m.PageAt id v i ∧ (m.RAM i).reserved = false) : m'.Right base := by
  intro id v i hpage hres
  obtain ⟨hpage, hres⟩ := hframe hpage hres
  rw [hlog]
  exact h hpage hres

/-- The line is about the frame `i`, and so is what has changed. -/
theorem Right.put (h : m.Right base)
    (hlog : m'.ledger base = m.ledger base ++ [.put i id (base id + v)]) (hat : m'.PageAt id v i)
    (hothers : ∀ {g}, g ≠ i → (m'.RAM g).shape = (m.RAM g).shape ∧
      (m'.RAM g).reserved = (m.RAM g).reserved) : m'.Right base := by
  intro id' u g hpage hres
  rw [hlog, Ledger.contents_put]
  by_cases hg : g = i
  · subst hg
    rw [if_pos rfl, ← hpage.processId, ← hpage.vpage, hat.processId, hat.vpage]
  · obtain ⟨hs, hr⟩ := hothers hg
    rw [if_neg fun he => hg (coe_inj he).symm]
    exact h (hpage.congr hs.symm) (hr ▸ hres)

/-- The frame of a page table holds no page. -/
theorem Right.pageTable (h : m.Right base) (hin : TableIn m m' x i) (htab : m'.TableAt y i)
    (hlog : m'.ledger base = m.ledger base) : m'.Right base := by
  refine h.quiet hlog fun {id v g} hpage hres => ?_
  have hg : g ≠ i := by
    rintro rfl
    exact htab.pte_ne_none hpage.page
  obtain ⟨hs, hr⟩ := hin.frame_of_ne hg
  exact ⟨hpage.congr hs.symm, hr ▸ hres⟩

/-- Nothing is said, nothing goes into a frame, and nobody starts to wait. -/
theorem Told.quiet (h : Told base m) (hg : m'.Guarded fun _ _ _ _ => True)
    (hbases : ∀ {q z}, m'.Live q z → z.base = base z.id)
    (hlog : m'.ledger base = m.ledger base)
    (hframe : ∀ {id v} {i : Fin 32}, m'.PageAt id v i → (m'.RAM i).reserved = false →
      m.PageAt id v i ∧ (m.RAM i).reserved = false)
    (hlive : ∀ {q z}, m'.Live q z → z.pendingFrame ≠ -1 → ∃ w, m.Live q w ∧ w.id = z.id ∧
      w.pendingPage = z.pendingPage ∧ w.pendingFrame = z.pendingFrame) : Told base m' where
  guarded := hg
  bases := hbases
  holds := h.holds.quiet hlog hframe
  waits hz hne := by
    obtain ⟨w, hw, hid, hp, hf⟩ := hlive hz hne
    rw [hlog, ← hid, ← hp]
    exact h.waits hw (hf ▸ hne)
  answered := hlog ▸ h.answered

/-- The frames keep their shapes and their reservations, and the processes stay. -/
theorem Told.of_frames (h : Told base m) (hg : m'.Guarded fun _ _ _ _ => True)
    (hheap : m'.heap = m.heap) (hpcbs : m'.currentPCBs = m.currentPCBs)
    (hlog : m'.memoryLog = m.memoryLog)
    (hf : ∀ f, (m'.RAM f).shape = (m.RAM f).shape ∧ (m'.RAM f).reserved = (m.RAM f).reserved) :
    Told base m' := by
  have hlive : ∀ {q z}, m'.Live q z → m.Live q z := fun {q z} hz => by
    rwa [Live, hheap, hpcbs] at hz
  refine h.quiet hg (fun hz => h.bases (hlive hz)) (by rw [ledger, hlog, ledger])
    (fun {id v i} hpage hres => ?_) fun hz _ => ⟨_, hlive hz, rfl, rfl, rfl⟩
  exact ⟨hpage.congr (hf i).1.symm, (hf i).2 ▸ hres⟩

/-- A write of the scheduler to its own fields. -/
theorem Told.write (h : Told base m) (hx : m.Live p x) (hw : x.Own y) :
    Told base (m.withPcb p y) := by
  refine h.quiet (h.guarded.write hx hw) (bases_withPcb h.bases hx hw.base (key_id hw.key)) rfl
    (fun hpage hres => ⟨hpage.congr rfl, hres⟩) fun hz hne => ?_
  rcases (FramesOnly.refl _).live_cases hx hz with ⟨rfl, rfl⟩ | ⟨-, hz⟩
  · exact ⟨x, hx, (key_id hw.key).symm, hw.pendingPage.symm, hw.pendingFrame.symm⟩
  · exact ⟨_, hz, rfl, rfl, rfl⟩

/-- **A page fault asks for the page**, whose frame is reserved. -/
theorem Told.demand (h : Told base m) (hx : m.Live p x) (hst : x.state ≠ .B)
    (hmiss : m.check p v c = .ok (.miss, m)) (hv : v < 64) (hraw : v = (parseHexaAddress raw).page)
    (hown : x.Own { y with state := x.state })
    (hf : (m.withPcb p y).faultHandler clk x.id v .demand raw c = .ok m') : Told base m' := by
  have hg := (kept_guarded fun _ _ _ _ => True).block h.guarded hx hst hmiss
    (fun _ => ⟨hv, fun _ _ _ => trivial⟩) hraw hown hf
  obtain ⟨z, hd⟩ := h.guarded.demanded hx hmiss hv hown hf
  have hlog : m'.ledger base = m.ledger base ++ [.ask x.id (base x.id + v)] := by
    have ht : FaultType.demand ≠ .firstPage := by simp
    have hadds := (faultHandler_adds base clk (m.withPcb p y) x.id v raw c ht).of_ok hf
    rwa [if_pos rfl, ← hraw] at hadds
  have hsame : SameCore (m.withPcb p y) m' :=
    ((faultHandler_keeps clk _ x.id v .demand raw c).of_ok hf).sameCore
  have hidle := (h.guarded.orderly hx).idle hst
  have hk : y.key = x.key := hown.key
  have hb : y.base = x.base := hown.base
  refine ⟨hg, bases_sameCore (bases_withPcb h.bases hx hb (key_id hk)) hsame,
    fun {id u i} hpage hres => ?_, fun {q w} hw hne => ?_, hlog ▸ h.answered.ask _ _⟩
  · rw [hlog, Ledger.contents_ask]
    rcases hd.page with ⟨j, -, -, hin, hresj⟩ | ⟨-, -, -, hram⟩
    · have hij : i ≠ j := by
        rintro rfl
        rw [hresj] at hres
        simp at hres
      obtain ⟨hs, hr⟩ := hin.frame_of_ne hij
      exact h.holds (hpage.congr hs.symm) (hr ▸ hres)
    · exact h.holds (hpage.congr (by rw [hram])) (hram ▸ hres)
  · rw [hlog, Ledger.asked_ask]
    rcases hd.only.live_cases hx hw with ⟨rfl, rfl⟩ | ⟨hq, hw⟩
    · rw [key_id hd.key, if_pos rfl]
      rcases hd.page with ⟨j, hp, -, -, -⟩ | ⟨-, -, hnone, -⟩
      · rw [hp]
      · exact absurd hnone hne
    · rw [if_neg fun he => hq (h.guarded.agree.toPlaced.wf.ids hw hx he.symm)]
      exact h.waits hw hne

/-- **`checkBlockEnd` tells of the page** that its process has asked for. -/
theorem Told.unblock (h : Told base m) (hx : m.Live p x)
    (hm : (m.logLine (.loaded t (x.base + x.pendingPage) x.id x.pendingFrame)).freeReserved
      x.pendingFrame = .ok m') :
    Told base (m'.withPcb p { x with pendingPage := -1, pendingFrame := -1, state := .W }) := by
  have hg := h.guarded.unblock hx hm
  obtain ⟨i, hi, rfl⟩ := freeReserved_eq_ok hm
  obtain ⟨j, hj, hpage, -⟩ := h.guarded.backed hx (by omega)
  obtain rfl := coe_inj (hi.symm.trans hj)
  let line : MemLine := .loaded t (x.base + x.pendingPage) x.id x.pendingFrame
  let y : PCB := { x with pendingPage := -1, pendingFrame := -1, state := .W }
  let m₁ : Mem := (m.logLine line).setFrame i fun fr => { fr with reserved := false }
  have hx₁ : m₁.Live p x := hx
  have hlog : (m₁.withPcb p y).ledger base =
      m.ledger base ++ [.put i x.id (base x.id + x.pendingPage)] := by
    have hline := ledger_logLine base m line
    rw [← h.bases hx, ← hi]
    exact hline
  have hshape := unreserve_shape (m.logLine line) i
  refine ⟨hg, bases_withPcb (y := y) (m := m₁) h.bases hx₁ rfl rfl,
    h.holds.put hlog (hpage.congr (hshape i)) fun {g} hg => ⟨hshape g, ?_⟩,
    fun {q w} hw hne => ?_, ?_⟩
  · exact congrArg Frame.reserved (Function.update_of_ne hg ..)
  · show Ledger.asked ((m₁.withPcb p y).ledger base) _ = _
    rw [hlog, Ledger.asked_put]
    rcases (FramesOnly.refl (m₁.withPcb p y)).live_cases hx₁ hw with ⟨rfl, rfl⟩ | ⟨hq, hw⟩
    · exact absurd rfl hne
    · have hw : m.Live q w := hw
      rw [if_neg fun he => hq (h.guarded.agree.toPlaced.wf.ids hw hx he.symm)]
      exact h.waits hw hne
  · show Ledger.Answered base ((m₁.withPcb p y).ledger base)
    rw [hlog]
    exact h.answered.put _ (Or.inr (h.waits hx (by omega)))

theorem release_ledger (h : m.release p = .ok m') : m'.ledger base = m.ledger base := by
  obtain ⟨x, -, h⟩ := bind_eq_ok.mp h
  obtain ⟨r, -, h⟩ := bind_eq_ok.mp h
  obtain ⟨m₁, hm₁, h⟩ := bind_eq_ok.mp h
  obtain ⟨f, -, hm₁⟩ := bind_eq_ok.mp hm₁
  rw [← Except.ok.inj h, ← Except.ok.inj hm₁]
  rfl

/-- A process that is let go of takes its pages with it. -/
theorem Told.finish (h : Told base m) (hx : m.Live p x) (hr : m.release p = .ok m') :
    Told base m' := by
  have hfin := (h.guarded.agree.toPlaced.released hx hr).1
  refine h.quiet ((kept_guarded _).finish h.guarded hx hr)
    (fun hz => h.bases (hfin.live.mp hz).1) (release_ledger hr) (fun {id v i} hpage hres => ?_)
    fun hz _ => ⟨_, (hfin.live.mp hz).1, rfl, rfl, rfl⟩
  have hframe := hfin.RAM_of_ne (hfin.ne_of_occupied hpage.occupied)
  exact ⟨hpage.congr (by rw [hframe]), hframe ▸ hres⟩

/-- A process that starts waits for nothing. -/
theorem Guarded.launch_idle {F : Ptr → ℤ → ℤ → ℤ → Prop} {k : ℤ} (h : m.Guarded F)
    (hx : m.Live p x) (hpid : x.pid = -1) (hk : k ≠ -1) (hm : m.initializePCB clk p = .ok m')
    (hy : m'.heap p = some y) : y.pendingFrame = -1 := by
  have hg := h.launch hx hpid hk hm hy
  have hord := h.orderly hx
  have hkeeps := (initializePCB_keeps clk m p).of_ok hm
  obtain ⟨y', hy', -, hstate⟩ := hkeeps.pcb hx.2
  obtain rfl := Option.some.inj (hy.symm.trans hy')
  have hlive : m'.Live p y := ⟨hkeeps.pcbs ▸ hx.1, hy⟩
  refine (hg.orderly (hlive.withPcb _)).idle fun hB => ?_
  rcases hstate with hstate | ⟨-, hnone⟩
  · exact hord.launched (hord.paged (hstate ▸ hB)) hpid
  · simp at hnone

/-- **A process that starts** has its page 0 loaded without having asked for it. -/
theorem Told.launch {k : ℤ} (h : Told base m) (hx : m.Live p x) (hpid : x.pid = -1) (hk : k ≠ -1)
    (hm : m.initializePCB clk p = .ok m') (hy : m'.heap p = some y) :
    Told base (m'.withPcb p { y with lState := .start, pid := k }) := by
  let u : PCB := { y with lState := .start, pid := k }
  have hg := h.guarded.launch hx hpid hk hm hy
  have hord := h.guarded.orderly hx
  have hplaced := h.guarded.agree.toPlaced
  have hn : x.frameIndex = -1 := by
    by_contra hne
    exact hord.launched hne hpid
  have hkeeps := (initializePCB_keeps clk m p).of_ok hm
  have hlive : m'.Live p y := ⟨hkeeps.pcbs ▸ hx.1, hy⟩
  have hidle : u.pendingFrame = -1 := h.guarded.launch_idle (y := y) hx hpid hk hm hy
  have hbases : ∀ {q z}, (m'.withPcb p u).Live q z → z.base = base z.id :=
    bases_withPcb (bases_sameCore h.bases hkeeps.sameCore) hlive rfl rfl
  -- what is left to be shown, wherever the two pages have gone
  have hdone : (∀ {q z}, q ≠ p → m'.Live q z → m.Live q z) → m'.Right base →
      (∀ id, id ≠ x.id → Ledger.asked (m'.ledger base) id = Ledger.asked (m.ledger base) id) →
      Ledger.Answered base (m'.ledger base) → Told base (m'.withPcb p u) := by
    intro hothers hholds hasked hanswered
    refine ⟨hg, hbases, hholds.quiet rfl fun hpage hres => ⟨hpage.congr rfl, hres⟩,
      fun {q z} hz hne => ?_, hanswered⟩
    rcases (FramesOnly.refl _).live_cases hlive hz with ⟨rfl, rfl⟩ | ⟨hq, hz⟩
    · exact absurd hidle hne
    · have hz := hothers hq hz
      exact (hasked z.id fun he => hq (hplaced.wf.ids hz hx he)).trans (h.waits hz hne)
  rw [initializePCB, pcb_eq hx.2, ok_bind, if_pos hn] at hm
  rcases faultHandler_pageTable clk [] (v := 0) (c := 'r') hplaced hx with
    ⟨hs, he⟩ | ⟨i, m₁, he, ho, hin⟩
  · rw [he, ok_bind, faultHandler_other_scan (by simp) hplaced.wf hx, hs] at hm
    obtain rfl := Except.ok.inj hm
    exact hdone (fun _ hz => hz) h.holds (fun _ _ => rfl) h.answered
  · rw [he, ok_bind] at hm
    have hplaced₁ := hin.placed hplaced hx hn ho
    have hx₁ : m₁.Live p { x with frameIndex := i } := ho.live.mpr (hx.withPcb _)
    obtain ⟨r, ha⟩ := hin.assigned
    have htab := ha.tableAt (hplaced.limits hx)
    have hlog₁ : m₁.ledger base = m.ledger base :=
      ((faultHandler_adds base clk m x.id 0 [] 'r' (by simp)).of_ok he).trans (List.append_nil _)
    have hothers₁ : ∀ {q z}, q ≠ p → m₁.Live q z → m.Live q z := fun hq hz =>
      (ho.live_cases hx hz).elim (fun hp => absurd hp.1 hq) And.right
    have hholds₁ : m₁.Right base := h.holds.pageTable hin htab hlog₁
    have hothers : ∀ {q z}, q ≠ p → m'.Live q z → m₁.Live q z := by
      rcases faultHandler_firstPage clk [] (c := 'r') hplaced₁ hx₁ htab with
        ⟨-, he'⟩ | ⟨j, w, m₂, he', -, ho', -⟩
      · obtain rfl := Except.ok.inj (hm.symm.trans he')
        exact fun _ hz => hz
      · obtain rfl := Except.ok.inj (hm.symm.trans he')
        exact fun hq hz => (ho'.live_cases hx₁ hz).elim (fun hp => absurd hp.1 hq) And.right
    rcases faultHandler_firstPage_adds base clk [] (c := 'r') hplaced₁ hx₁ htab with
      he' | ⟨j, m₂, he', hpage, hlog⟩
    · obtain rfl := Except.ok.inj (hm.symm.trans he')
      exact hdone hothers₁ hholds₁ (fun _ _ => by rw [hlog₁]) (hlog₁ ▸ h.answered)
    · obtain rfl := Except.ok.inj (hm.symm.trans he')
      have hbase : x.base = base x.id := h.bases hx
      have hput : m'.ledger base = m₁.ledger base ++ [.put j x.id (base x.id + 0)] := by
        rw [add_zero, ← hbase]
        exact hlog
      rw [hlog₁] at hlog
      refine hdone (fun hq hz => hothers₁ hq (hothers hq hz))
        (hholds₁.put hput hpage.loaded.2.1 hpage.frame_of_ne) (fun id hid => ?_) ?_
      · rw [hlog, Ledger.asked_put, if_neg fun he => hid he.symm]
      · rw [hlog]
        exact h.answered.put _ (Or.inl hbase)

/-- **The ledger stays right**, whatever the scheduler does with the memory. -/
theorem kept_told (base : ℤ → ℤ) : Kept (Told base) (Unfollowed fun _ _ _ _ => True)
    fun d => Paged d ∧ d.base = base d.id where
  write h hx hw := h.write hx hw
  choose h hcur := h.of_frames ((kept_guarded _).choose h.guarded hcur) rfl rfl rfl
    fun _ => ⟨rfl, rfl⟩
  access := by
    intro m m' p x v c r h hx hc
    have hg := (kept_guarded _).access h.guarded hx hc
    obtain ⟨f, hf, ⟨-, rfl, -⟩ | ⟨pt, e, hpt, he, ⟨-, hval, j, hj, rfl⟩ | ⟨-, -, rfl⟩⟩⟩ :=
      check_ok hx.2 hc
    · exact h
    · exact h.of_frames hg rfl rfl rfl fun g => ⟨touched_shape hpt g, touched_reserved g⟩
    · exact h
  block h hx hst hmiss hroom hraw hown hf := h.demand hx hst hmiss (hroom rfl).1 hraw hown hf
  unblock h hx _ hf := h.unblock hx hf
  clear := by
    intro m m' h hc
    have hg := (kept_guarded _).clear h.guarded hc
    rw [clearRecent_eq h.guarded.agree.toPlaced] at hc
    obtain rfl := Except.ok.inj hc
    refine h.of_frames hg rfl rfl rfl fun f => ⟨cleared_shape _, ?_⟩
    show (cleared (m.RAM f)).reserved = _
    unfold cleared
    split_ifs <;> rfl
  launch h hx hpid hi _ hm hy := h.launch hx hpid hi hm hy
  create := by
    intro m d h hfresh hid hadm
    have hg := (kept_guarded _).create h.guarded hfresh hid hadm.1
    have hlive : ∀ {q z}, (m.create d).Live q z ↔ m.Live q z ∨ (q = m.brk ∧ z = createPCB d) :=
      live_create hfresh h.guarded.agree.toPlaced.wf
    refine h.quiet hg (fun hz => ?_) rfl (fun hpage hres => ⟨hpage.congr rfl, hres⟩)
      fun hz hne => ?_
    · rcases hlive.mp hz with hz | ⟨-, rfl⟩
      · exact h.bases hz
      · exact hadm.2
    · rcases hlive.mp hz with hz | ⟨-, rfl⟩
      · exact ⟨_, hz, rfl, rfl, rfl⟩
      · exact absurd rfl hne
  finish h hx hr := h.finish hx hr

/-- At the start, nothing has been said. -/
theorem init_told (base : ℤ → ℤ) : Told base Mem.init where
  guarded := init_guarded _
  bases hz := absurd hz.1 List.not_mem_nil
  holds _ _ _ hpage := absurd hpage.occupied (by rintro ⟨⟩)
  waits hz := absurd hz.1 List.not_mem_nil
  answered := Ledger.answered_nil

end Mem

end CpuScheduler
