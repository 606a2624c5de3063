import CpuScheduler.Lib.Since
import CpuScheduler.Mmu.InFlight

/-!
# The bits as a record of the past

NRU decides by the `R` and `M` bits, and nobody checks them. Here a run of the memory
operations (`CpuScheduler.Mem.system`) is taken together with the list of what has
happened to pages so far: loads, hits and clears, in this order
(`CpuScheduler.Mem.traced`). The bits of a resident page are then a function of this list
(`CpuScheduler.Mem.reachable_recorded`): `M` says that the page has been written to since
it was loaded, the load included, and `R` that it has been loaded or hit since the bits
were cleared.

A load is observed and not predicted: it is an event of a step that the page was not
resident before the step and is resident after it.
-/

namespace CpuScheduler

/-- What happens to a page of a process – it is loaded, or hit, for writing or not – or to
all pages. -/
inductive Touch
  | load (p : Ptr) (v : ℤ) (w : Bool)
  | hit (p : Ptr) (v : ℤ) (w : Bool)
  | clear
deriving DecidableEq, Repr

variable {p q : Ptr} {v u : ℤ} {w : Bool} {h l : List Touch}

/-- The page has been written to since it was last loaded, or by that load. -/
def Written (p : Ptr) (v : ℤ) : List Touch → Prop :=
  Since (fun e => ∀ w, e ≠ .load p v w) fun e => e = .load p v true ∨ e = .hit p v true

/-- The page has been loaded or hit since the bits were last cleared. -/
def Referenced (p : Ptr) (v : ℤ) : List Touch → Prop :=
  Since (fun e => e ≠ .clear) fun e => ∃ w, e = .load p v w ∨ e = .hit p v w

/-! ### One more event -/

/-- **A load starts the record anew.** -/
theorem written_load_self : Written p v (h ++ [.load p v w]) ↔ w = true := by
  rw [Written, since_concat]
  constructor
  · rintro ((he | he) | ⟨hb, -⟩)
    · injection he
    · exact nomatch he
    · exact absurd rfl (hb w)
  · rintro rfl
    exact Or.inl (Or.inl rfl)

theorem written_load_of_ne (hne : q = p → u ≠ v) :
    Written q u (h ++ [.load p v w]) ↔ Written q u h := by
  refine since_concat_of ?_ fun w' he => ?_
  · rintro (he | he)
    · injection he with hp hv
      exact hne hp.symm hv.symm
    · exact nomatch he
  · injection he with hp hv
    exact hne hp.symm hv.symm

theorem written_hit :
    Written q u (h ++ [.hit p v w]) ↔ (q = p ∧ u = v ∧ w = true) ∨ Written q u h := by
  rw [Written, since_concat]
  constructor
  · rintro ((he | he) | ⟨-, hs⟩)
    · exact nomatch he
    · injection he with hp hv hw
      exact Or.inl ⟨hp.symm, hv.symm, hw⟩
    · exact Or.inr hs
  · rintro (⟨rfl, rfl, rfl⟩ | hs)
    · exact Or.inl (Or.inr rfl)
    · exact Or.inr ⟨(fun _ he => nomatch he), hs⟩

theorem written_clear : Written q u (h ++ [.clear]) ↔ Written q u h := by
  refine since_concat_of ?_ fun _ he => nomatch he
  rintro (he | he) <;> exact nomatch he

theorem referenced_load :
    Referenced q u (h ++ [.load p v w]) ↔ (q = p ∧ u = v) ∨ Referenced q u h := by
  rw [Referenced, since_concat]
  constructor
  · rintro (⟨w', he | he⟩ | ⟨-, hs⟩)
    · injection he with hp hv
      exact Or.inl ⟨hp.symm, hv.symm⟩
    · exact nomatch he
    · exact Or.inr hs
  · rintro (⟨rfl, rfl⟩ | hs)
    · exact Or.inl ⟨w, Or.inl rfl⟩
    · exact Or.inr ⟨(fun he => nomatch he), hs⟩

theorem referenced_hit :
    Referenced q u (h ++ [.hit p v w]) ↔ (q = p ∧ u = v) ∨ Referenced q u h := by
  rw [Referenced, since_concat]
  constructor
  · rintro (⟨w', he | he⟩ | ⟨-, hs⟩)
    · exact nomatch he
    · injection he with hp hv
      exact Or.inl ⟨hp.symm, hv.symm⟩
    · exact Or.inr hs
  · rintro (⟨rfl, rfl⟩ | hs)
    · exact Or.inl ⟨w, Or.inr rfl⟩
    · exact Or.inr ⟨(fun he => nomatch he), hs⟩

theorem not_referenced_clear : ¬Referenced q u (h ++ [.clear]) := by
  rw [Referenced, since_concat]
  rintro (⟨w', he | he⟩ | ⟨hb, -⟩)
  · exact nomatch he
  · exact nomatch he
  · exact hb rfl

namespace Mem

variable {m m' m₁ : Mem} {x y z : PCB} {e : PTE} {f i : Fin 32} {c : Char} {clk : Clk}

/-! ### Runs with their history -/

/-- Whether a page is resident. -/
def resident (m : Mem) (p : Ptr) (v : ℤ) : Bool :=
  ((m.heap p).bind fun x => m.entry x v).any PTE.valid

/-- The load of a page, if it was not resident and now is. -/
def loads (m m' : Mem) (p : Ptr) (v : ℤ) (w : Bool) : List Touch :=
  if m.resident p v = false ∧ m'.resident p v = true then [.load p v w] else []

/-- **The memory operations, with what they do to pages.** Page 0 of a process that starts is
loaded for reading. -/
inductive Touches : Mem → Mem → List Touch → Prop
  | receive {m : Mem} {d : ProcessData} (hid : ∀ p x, m.Live p x → x.id ≠ d.id)
      (hlim : 1 ≤ d.limit ∧ d.limit ≤ 64) : Touches m (m.create d) []
  | reschedule {m m' : Mem} (h : Reschedule m m') : Touches m m' []
  | start {m m' : Mem} {clk : Clk} {p : Ptr} {x : PCB} (hx : m.Live p x)
      (h : m.initializePCB clk p = .ok m') : Touches m m' (loads m m' p 0 false)
  | hit {m m' : Mem} {p : Ptr} {x : PCB} {v : ℤ} {c : Char} (hx : m.Live p x)
      (hf : x.frameIndex ≠ -1) (hv : 0 ≤ v ∧ v < x.limit) (h : m.check p v c = .ok (.hit, m')) :
      Touches m m' [.hit p v (c = 'w')]
  | fault {m m₁ m' : Mem} {clk : Clk} {p : Ptr} {x : PCB} {v : ℤ} {raw : List Char} {c : Char}
      (hx : m.Live p x) (hf : x.frameIndex ≠ -1) (hv : 0 ≤ v ∧ v < x.limit)
      (hmiss : m.check p v c = .ok (.miss, m)) (hm₁ : Reschedule m m₁)
      (h : m₁.faultHandler clk x.id v .demand raw c = .ok m') :
      Touches m m' (loads m m' p v (c = 'w'))
  | unreserve {m m' : Mem} {i : ℤ} (h : m.freeReserved i = .ok m') : Touches m m' []
  | clear {m m' : Mem} (h : m.clearRecent = .ok m') : Touches m m' [.clear]
  | finish {m m' : Mem} {p : Ptr} {x : PCB} (hx : m.Live p x) (hf : x.frameIndex ≠ -1)
      (h : m.release p = .ok m') : Touches m m' []

/-- The memory together with what has happened to pages so far. -/
def traced : TransitionSystem (Mem × List Touch) where
  init s := s = (Mem.init, [])
  step s t := ∃ l, Touches s.1 t.1 l ∧ t.2 = s.2 ++ l

theorem Touches.step (h : Touches m m' l) : Step m m' := by
  cases h with
  | receive hid hlim => exact .receive hid hlim
  | reschedule h => exact .reschedule h
  | start hx h => exact .start hx h
  | hit hx hf hv h => exact .hit hx hf hv h
  | fault hx hf hv hmiss hm₁ h => exact .fault hx hf hv hmiss hm₁ h
  | unreserve h => exact .unreserve h
  | clear h => exact .clear h
  | finish hx hf h => exact .finish hx hf h

theorem Step.touches (h : Step m m') : ∃ l, Touches m m' l := by
  cases h with
  | receive hid hlim => exact ⟨_, .receive hid hlim⟩
  | reschedule h => exact ⟨_, .reschedule h⟩
  | start hx h => exact ⟨_, .start hx h⟩
  | hit hx hf hv h => exact ⟨_, .hit hx hf hv h⟩
  | fault hx hf hv hmiss hm₁ h => exact ⟨_, .fault hx hf hv hmiss hm₁ h⟩
  | unreserve h => exact ⟨_, .unreserve h⟩
  | clear h => exact ⟨_, .clear h⟩
  | finish hx hf h => exact ⟨_, .finish hx hf h⟩

/-- **The history is a ghost**: the runs are those of the memory operations. -/
theorem traced_reachable : system.Reachable m ↔ ∃ h, traced.Reachable (m, h) := by
  constructor
  · intro hm
    induction hm with
    | init hm => exact ⟨[], .init (by rw [show _ = Mem.init from hm]; rfl)⟩
    | step _ hst ih =>
      obtain ⟨h, hr⟩ := ih
      obtain ⟨l, ht⟩ := hst.touches
      exact ⟨h ++ l, hr.step ⟨l, ht, rfl⟩⟩
  · rintro ⟨h, hr⟩
    refine TransitionSystem.Reachable.map (T := system) (f := Prod.fst) ?_ ?_ hr
    · rintro s rfl
      exact rfl
    · rintro s t _ ⟨l, ht, -⟩
      exact Or.inl ht.step

/-! ### The valid entries after an operation -/

/-- A page goes into a frame: the other valid entries were there before. -/
theorem PageIn.entry_cases (hin : PageIn m m' x v i w) (he : m'.entry y u = some e)
    (hval : e.valid = true) :
    (y.frameIndex = x.frameIndex ∧ u = v ∧ e.R = true ∧ e.M = w) ∨
      (¬(y.frameIndex = x.frameIndex ∧ u = v) ∧ m.entry y u = some e) := by
  have hloaded : ∀ {m₁ : Mem}, Loaded m₁ m' x v i w →
      (y.frameIndex = x.frameIndex ∧ u = v ∧ e.R = true ∧ e.M = w) ∨
        (¬(y.frameIndex = x.frameIndex ∧ u = v) ∧ m₁.entry y u = some e) := by
    intro m₁ hl
    rw [hl.entry] at he
    split_ifs at he with hc
    · obtain rfl := Option.some.inj he
      exact Or.inl ⟨hc.1, hc.2, rfl, rfl⟩
    · exact Or.inr ⟨hc, he⟩
  cases hin with
  | free _ hl => exact hloaded hl
  | evict _ _ _ _ _ hev hl =>
    refine (hloaded hl).imp_right fun ⟨hc, he⟩ => ⟨hc, ?_⟩
    rw [hev.entry] at he
    split_ifs at he
    · obtain rfl := Option.some.inj he
      exact nomatch hval
    · exact he

/-- A page table goes into a frame: the valid entries were there before, in other tables. -/
theorem TableIn.entry_cases (hin : TableIn m m' x i) (he : m'.entry y u = some e)
    (hval : e.valid = true) : y.frameIndex ≠ i ∧ m.entry y u = some e := by
  have hy : y.frameIndex ≠ i := by
    intro hc
    have hnew : m'.entry { x with frameIndex := i } u = some e := by
      rw [← he]
      exact entry_eq_of_index hc.symm u
    exact nomatch (hin.entry hnew).symm.trans hval
  refine ⟨hy, ?_⟩
  have hframes : ∀ {m₁ : Mem}, Assigned m₁ m' x i → m₁.entry y u = some e := fun {m₁} ha => by
    rw [← he]
    refine (entry_congr (fun f hf => ?_) u).symm
    rw [ha.frames f fun hfi => hy (hfi ▸ hf)]
  cases hin with
  | free _ ha => exact hframes ha
  | evict _ _ _ _ _ hev ha =>
    have hold := hframes ha
    rw [hev.entry] at hold
    split_ifs at hold
    · obtain rfl := Option.some.inj hold
      exact nomatch hval
    · exact hold

/-! ### The record is kept -/

/-- **The bits of the resident pages record the history.** -/
structure Recorded (m : Mem) (h : List Touch) : Prop where
  bits : ∀ {p x v e}, m.Live p x → m.entry x v = some e → e.valid = true →
    (e.M = true ↔ Written p v h) ∧ (e.R = true ↔ Referenced p v h)

/-- The valid entries were there before. -/
theorem Recorded.of_entries (hr : Recorded m h) (hent : ∀ {q y u e}, m'.Live q y →
      m'.entry y u = some e → e.valid = true → ∃ x, m.Live q x ∧ m.entry x u = some e) :
    Recorded m' h := by
  refine ⟨fun hy he hval => ?_⟩
  obtain ⟨x, hx, hex⟩ := hent hy he hval
  exact hr.bits hx hex hval

/-- One page has been loaded, and the other valid entries were there before. -/
theorem Recorded.load (hr : Recorded m h) (hent : ∀ {q y u e}, m'.Live q y →
      m'.entry y u = some e → e.valid = true →
      (q = p ∧ u = v ∧ e.R = true ∧ e.M = w) ∨
        ((q = p → u ≠ v) ∧ ∃ x, m.Live q x ∧ m.entry x u = some e)) :
    Recorded m' (h ++ [.load p v w]) := by
  refine ⟨fun {q y u e} hy he hval => ?_⟩
  rcases hent hy he hval with ⟨rfl, rfl, hR, hM⟩ | ⟨hne, x, hx, hex⟩
  · rw [written_load_self, referenced_load, hR, hM]
    exact ⟨Iff.rfl, iff_of_true rfl (Or.inl ⟨rfl, rfl⟩)⟩
  · obtain ⟨hM, hR⟩ := hr.bits hx hex hval
    rw [written_load_of_ne hne, referenced_load, hM, hR]
    exact ⟨Iff.rfl, Or.inr, fun hc => hc.resolve_left fun hpv => hne hpv.1 hpv.2⟩

theorem resident_eq (hx : m.heap p = some x) : m.resident p v = (m.entry x v).any PTE.valid := by
  rw [resident, hx, Option.bind_some]

/-- **A page is loaded, or there was no frame for it.** -/
theorem Recorded.loads (hr : Recorded m h) (hxv : m.resident p v = false)
    (hy : m'.heap p = some y)
    (hent : (∃ e, m'.entry y v = some e ∧ e.valid = true) → ∀ {q y u e}, m'.Live q y →
      m'.entry y u = some e → e.valid = true →
      (q = p ∧ u = v ∧ e.R = true ∧ e.M = w) ∨
        ((q = p → u ≠ v) ∧ ∃ x, m.Live q x ∧ m.entry x u = some e))
    (hnone : (∀ e, m'.entry y v = some e → e.valid = false) → ∀ {q y u e}, m'.Live q y →
      m'.entry y u = some e → e.valid = true → ∃ x, m.Live q x ∧ m.entry x u = some e) :
    Recorded m' (h ++ m.loads m' p v w) := by
  have hres : m'.resident p v = (m'.entry y v).any PTE.valid := resident_eq hy
  rw [Mem.loads]
  split_ifs with hl
  · refine hr.load (hent ?_)
    rw [hres, Option.any_eq_true] at hl
    exact hl.2
  · rw [List.append_nil]
    refine hr.of_entries (hnone fun e he => Bool.eq_false_iff.mpr fun hval => hl ⟨hxv, ?_⟩)
    rw [hres, he]
    exact hval

/-- A frame holds the page table of one process. -/
theorem Placed.index_inj (h : m.Placed Everywhere) (hx : m.Live p x) (hy : m.Live q y)
    (hn : x.frameIndex ≠ -1) (he : y.frameIndex = x.frameIndex) : q = p := by
  obtain ⟨f, -, hf⟩ := h.tableAt hx hn
  exact h.tableAt_inj hy hx (h.table_at hy (he.trans hf.index)) hf

theorem loads_self (m : Mem) (p : Ptr) (v : ℤ) (w : Bool) : m.loads m p v w = [] := by
  rw [loads, if_neg]
  rintro ⟨h1, h2⟩
  exact nomatch h1.symm.trans h2

/-- A demand fault. -/
theorem Recorded.demand {e₀ : PTE} (hr : Recorded m h) (hm : m.Consistent) (hx : m.Live p x)
    (he₀ : m.entry x v = some e₀) (hinv : e₀.valid = false) (hm₁ : Reschedule m m₁)
    (hy : m₁.Live p y) (hd : Demanded clk m₁ m' p y v w z) :
    Recorded m' (h ++ m.loads m' p v w) := by
  have hn : x.frameIndex ≠ -1 := fun hn => nomatch (entry_of_none hn v).symm.trans he₀
  have hres : m.resident p v = false := by
    rw [resident_eq hx.2, he₀]
    exact hinv
  have hz : m'.heap p = some z := by rw [hd.only.heap, withPcb_heap_self]
  have hent₁ : ∀ (y : PCB) u, m₁.entry y u = m.entry y u := fun y u =>
    entry_congr (fun f _ => by rw [hm₁.RAM]) u
  have hsp : SameProcs m m' :=
    (hm₁.procs.trans (sameProcs_withPcb hy.2 hd.key)).trans hd.only.sameProcs
  obtain ⟨x', hx', -, -, hidx⟩ := hm₁.procs.live hy
  obtain rfl := hx'.unique hx
  have hold : ∀ {q y' u e}, m'.Live q y' → m₁.entry y' u = some e →
      ∃ x, m.Live q x ∧ m.entry x u = some e := by
    intro q y' u e hy' he
    obtain ⟨x'', hx'', -, -, hidx'⟩ := hsp.live hy'
    exact ⟨x'', hx'', by rw [entry_eq_of_index hidx', ← hent₁, he]⟩
  rcases hd.page with ⟨i, -, -, hin, -⟩ | ⟨-, -, -, hram⟩
  · refine hr.loads hres hz (fun _ => ?_) fun hnone => ?_
    · intro q y' u e hy' he hval
      rcases hin.entry_cases he hval with ⟨hyx, hu, hR, hM⟩ | ⟨hne, he⟩
      · obtain ⟨x'', hx'', -, -, hidx'⟩ := hsp.live hy'
        refine Or.inl ⟨?_, hu, hR, hM⟩
        exact hm.toPlaced.index_inj hx hx'' hn (hidx'.trans (hyx.trans hidx.symm))
      · refine Or.inr ⟨fun hq hu => hne ⟨?_, hu⟩, hold hy' he⟩
        subst hq
        obtain rfl := Option.some.inj (hy'.2.symm.trans hz)
        exact key_frameIndex hd.key
    · have hloaded := hin.loaded.1
      rw [← entry_eq_of_index (key_frameIndex hd.key)] at hloaded
      exact nomatch hnone _ hloaded
  · have hent : ∀ (y : PCB) u, m'.entry y u = m₁.entry y u := fun y u =>
      entry_congr (fun f _ => by rw [hram]) u
    refine hr.loads hres hz (fun ⟨e, he, hval⟩ => ?_) fun _ _ _ _ _ hy' he _ =>
      hold hy' ((hent _ _).symm.trans he)
    rw [hent, hent₁, entry_eq_of_index ((key_frameIndex hd.key).trans hidx.symm), he₀] at he
    obtain rfl := Option.some.inj he
    exact nomatch hinv.symm.trans hval

/-- A process that starts. -/
theorem Recorded.started (hr : Recorded m h) (hm : m.Consistent) (hx : m.Live p x)
    (hn : x.frameIndex = -1) (hst : Started m m' p x) :
    Recorded m' (h ++ m.loads m' p 0 false) := by
  have hm' := hst.agree hm hx hn
  have hres : m.resident p 0 = false := by
    rw [resident_eq hx.2, entry_of_none hn]
    rfl
  -- whoever does not hold the new table was there before
  have hother : ∀ {y : PCB} {i : Fin 32}, y.frameIndex = i → FramesOnly (m.withPcb p y) m' →
      ∀ {q y' u e}, m'.Live q y' → y'.frameIndex ≠ i → m.entry y' u = some e →
        q ≠ p ∧ ∃ x, m.Live q x ∧ m.entry x u = some e := by
    intro y i hy ho q y' u e hy' hne he
    have hq : q ≠ p := by
      rintro rfl
      rw [(ho.live.mp hy').unique (hx.withPcb y)] at hne
      exact hne hy
    have hlive := ho.live.mp hy'
    exact ⟨hq, y', ⟨hlive.1, (withPcb_heap_of_ne hq y).symm.trans hlive.2⟩, he⟩
  cases hst with
  | full _ he =>
    subst he
    rw [loads_self, List.append_nil]
    exact hr
  | tableOnly i hin ho _ =>
    have hy : m'.heap p = some { x with frameIndex := i } := by rw [ho.heap, withPcb_heap_self]
    refine hr.loads hres hy (fun ⟨e, he, hval⟩ => ?_) fun _ q y' u e hy' he hval => ?_
    · exact nomatch (hin.entry he).symm.trans hval
    · obtain ⟨hne, he⟩ := hin.entry_cases he hval
      exact (hother rfl ho hy' hne he).2
  | @both i j y m₁ hin ho hy hpage ho' _ =>
    have hidx : y.frameIndex = i := by rcases hy with rfl | ⟨t, rfl⟩ <;> rfl
    have hheap : m'.heap p = some y := by rw [ho'.heap, withPcb_heap_self]
    have hlive : m'.Live p y := ho'.live.mpr (hx.withPcb y)
    refine hr.loads hres hheap (fun _ => ?_) fun hnone => ?_
    · intro q y' u e hy' he hval
      rcases hpage.entry_cases he hval with ⟨hyx, hu, hR, hM⟩ | ⟨-, he⟩
      · refine Or.inl ⟨?_, hu, hR, hM⟩
        exact hm'.toPlaced.index_inj hlive hy' (by omega) (hyx.trans hidx.symm)
      · obtain ⟨hne, he⟩ := hin.entry_cases he hval
        obtain ⟨hq, hold⟩ := hother hidx ho' hy' hne he
        exact Or.inr ⟨fun hc => absurd hc hq, hold⟩
    · have hloaded := hpage.loaded.1
      rw [← entry_eq_of_index (x := y) hidx] at hloaded
      exact nomatch hnone _ hloaded

/-- A hit. -/
theorem Recorded.hit {pt : List PTE} {e₀ : PTE} {j : Fin 32} (hr : Recorded m h)
    (hm : m.Consistent) (hx : m.Live p x) (hf : m.TableAt x f) (hpt : (m.RAM f).pte = some pt)
    (he₀ : entryOf pt v = some e₀) (hval₀ : e₀.valid = true) :
    Recorded (m.touched f pt v e₀ j w) (h ++ [.hit p v w]) := by
  have hent₀ : m.entry x v = some e₀ := by rw [entry_eq hf.index hpt, he₀]
  refine ⟨fun {q y u e} hy he hval => ?_⟩
  have hy : m.Live q y := hy
  rw [written_hit, referenced_hit]
  rw [touched_entry hpt he₀] at he
  split_ifs at he with hc
  · obtain ⟨hyf, rfl⟩ := hc
    obtain rfl : q = p := hm.toPlaced.index_inj hx hy hf.ne_neg_one (hyf.trans hf.index.symm)
    obtain rfl := hy.unique hx
    obtain rfl := Option.some.inj he
    refine ⟨?_, iff_of_true rfl (Or.inl ⟨rfl, rfl⟩)⟩
    rw [← (hr.bits hx hent₀ hval₀).1, Bool.or_eq_true, or_comm]
    simp only [true_and]
  · have hne : ¬(q = p ∧ u = v) := by
      rintro ⟨rfl, rfl⟩
      obtain rfl := hy.unique hx
      exact hc ⟨hf.index, rfl⟩
    obtain ⟨hM, hR⟩ := hr.bits hy he hval
    rw [hM, hR]
    refine ⟨⟨Or.inr, fun hw => hw.resolve_left fun hpv => hne ⟨hpv.1, hpv.2.1⟩⟩,
      ⟨Or.inr, fun hw => hw.resolve_left hne⟩⟩

/-- **Every operation keeps the record.** -/
theorem Touches.recorded (ht : Touches m m' l) (hi : Inv m) (hr : Recorded m h) :
    Recorded m' (h ++ l) := by
  have hsame : ∀ {m' : Mem}, SameProcs m m' → m'.RAM = m.RAM → Recorded m' (h ++ []) := by
    intro m' hp hram
    rw [List.append_nil]
    refine hr.of_entries fun {q y u e} hy he _ => ?_
    obtain ⟨x, hx, -, -, hidx⟩ := hp.live hy
    refine ⟨x, hx, ?_⟩
    rw [entry_eq_of_index hidx, ← he]
    exact (entry_congr (fun f _ => by rw [hram]) u).symm
  cases ht with
  | receive hid hlim =>
    rw [List.append_nil]
    refine hr.of_entries fun {q y u e} hy he _ => ?_
    rcases (live_create hi.fresh hi.consistent.wf).mp hy with hy | ⟨-, rfl⟩
    · exact ⟨y, hy, he⟩
    · exact absurd ((entry_of_none (x := createPCB _) rfl u).symm.trans he) (by simp)
  | reschedule hm => exact hsame hm.procs hm.RAM
  | @start _ clk p x hx hm =>
    by_cases hn : x.frameIndex = -1
    · obtain ⟨m₁, hm₁, hst⟩ := initializePCB_eq clk hi.consistent.toPlaced hx hn
      obtain rfl := Except.ok.inj (hm.symm.trans hm₁)
      exact hr.started hi.consistent hx hn hst
    · rw [initializePCB, pcb_eq hx.2, Fallible.ok_bind, if_neg hn] at hm
      obtain rfl := Except.ok.inj hm
      rw [loads_self, List.append_nil]
      exact hr
  | hit hx hf hv hc =>
    obtain ⟨f, j, pt, e, hxf, hpt, he, hval, hj, rfl⟩ := hit_inv hi hx hf hv hc
    exact hr.hit hi.consistent hx hxf hpt he hval
  | @fault m₁ _ clk p x v raw c hx hf hv hmiss hm₁ hfault =>
    obtain ⟨e, he, hinv⟩ := miss_entry hi hx hf hv hmiss
    obtain ⟨y, hy, hid, hlim, hidx⟩ := hm₁.procs.symm.live hx
    have hi₁ := hm₁.inv hi
    obtain ⟨g, -, hyg⟩ := hi₁.consistent.tableAt hy (hidx ▸ hf)
    have hent : m₁.entry y v = some e := by
      rw [← he, entry_eq_of_index hidx]
      exact entry_congr (fun _ _ => by rw [hm₁.RAM]) v
    obtain ⟨m₂, z, hm₂, hd⟩ := AgreeOn.demanded hi₁.consistent hy hyg hent
      (hv.2.trans_le (hi.limits hx)) clk raw c
    rw [hid] at hm₂
    obtain rfl := Except.ok.inj (hfault.symm.trans hm₂)
    exact hr.demand hi.consistent hx he hinv hm₁ hy hd
  | unreserve hf =>
    obtain ⟨i, -, rfl⟩ := freeReserved_eq_ok hf
    rw [List.append_nil]
    refine hr.of_entries fun {q y u e} hy he _ => ⟨y, hy, ?_⟩
    rw [← he]
    refine (entry_congr (fun f _ => ?_) u).symm
    rw [setFrame_RAM]
    by_cases hfi : f = i
    · rw [hfi, Function.update_self]
    · rw [Function.update_of_ne hfi]
  | clear hc =>
    rw [clearRecent_eq hi.consistent.toPlaced] at hc
    obtain rfl := Except.ok.inj hc
    refine ⟨fun {q y u e} hy he hval => ?_⟩
    have hy : m.Live q y := hy
    rw [cleared_entry hi.consistent.toPlaced hy] at he
    obtain ⟨e', he', rfl⟩ := Option.map_eq_some_iff.mp he
    rw [written_clear, ← (hr.bits hy he' hval).1]
    exact ⟨Iff.rfl, iff_of_false (by simp) not_referenced_clear⟩
  | @finish _ p x hx hf hrel =>
    obtain ⟨f, -, hxf⟩ := hi.consistent.tableAt hx hf
    obtain ⟨m₁, hm₁, hfin, -, -⟩ := release_eq hi.consistent.wf hx hxf
    obtain rfl := Except.ok.inj (hrel.symm.trans hm₁)
    rw [List.append_nil]
    refine hr.of_entries fun {q y u e} hy he _ => ⟨y, (hfin.live.mp hy).1, ?_⟩
    rw [← hfin.entry hi.consistent hx hy, he]

/-! ### The result -/

/-- The bits of a resident page, in the page table and in the frame. -/
structure History (m : Mem) (h : List Touch) : Prop where
  M : ∀ {p x v e}, m.Live p x → m.entry x v = some e → e.valid = true →
    (e.M = true ↔ Written p v h)
  R : ∀ {p x v e}, m.Live p x → m.entry x v = some e → e.valid = true →
    (e.R = true ↔ Referenced p v h)
  frame : ∀ {p x v e}, m.Live p x → m.entry x v = some e → e.valid = true →
    ∃ i : Fin 32, e.frameAddress = i ∧ m.PageAt x.id v i ∧ (m.RAM i).M = e.M ∧ (m.RAM i).R = e.R

/-- **The bits record the history**, in every run of the memory operations. -/
theorem reachable_history (hr : traced.Reachable (m, h)) : History m h := by
  have hkey : ∀ {s}, traced.Reachable s → Inv s.1 ∧ Recorded s.1 s.2 := by
    intro s hs
    induction hs with
    | init hs =>
      rw [show _ = (Mem.init, []) from hs]
      exact ⟨init_inv, ⟨fun hx => nomatch hx.1⟩⟩
    | @step s t _ hst ih =>
      obtain ⟨l, ht, he⟩ := hst
      exact ⟨Step.inv ht.step ih.1, he ▸ ht.recorded ih.1 ih.2⟩
  obtain ⟨hi, hrec⟩ := hkey hr
  refine ⟨fun hx he hval => (hrec.bits hx he hval).1, fun hx he hval => (hrec.bits hx he hval).2,
    fun hx he hval => ?_⟩
  obtain ⟨i, -, hfa, hpage, hR, hM⟩ := hi.consistent.valid hx he hval
  exact ⟨i, hfa, hpage, hM, hR⟩

/-- What a call does to pages. -/
def Op.touches (m m' : Mem) : Op → List Touch
  | .start _ p => m.loads m' p 0 false
  | .request _ p v c =>
    match m.check p v c with
    | .ok (.hit, _) => [.hit p v (c = 'w')]
    | _ => m.loads m' p v (c = 'w')
  | .clear => [.clear]
  | .receive _ | .unreserve _ | .finish _ => []

theorem act_touches {o : Op} (h : m.act o = some m') : Touches m m' (o.touches m m') := by
  cases o with
  | receive d =>
    rw [act] at h
    split_ifs at h with hc
    obtain rfl := Option.some.inj h
    exact .receive (fun q x hx => hc.1 q hx.1 x hx.2) hc.2
  | start t p =>
    obtain ⟨x, hx, h⟩ := Option.bind_eq_some_iff.mp h
    exact .start (alive_eq_some hx) (Fallible.toOption_eq_some.mp h)
  | request t p v c =>
    obtain ⟨x, hx, hf, hv, hhit | ⟨hmiss, hsame, hfault⟩⟩ := request_cases h
    · simp only [Op.touches, hhit]
      exact .hit hx hf hv hhit
    · simp only [Op.touches, hmiss]
      exact .fault hx hf hv hmiss hsame hfault
  | unreserve i => exact .unreserve (Fallible.toOption_eq_some.mp h)
  | clear => exact .clear (Fallible.toOption_eq_some.mp h)
  | finish p =>
    obtain ⟨x, hx, h⟩ := Option.bind_eq_some_iff.mp h
    split_ifs at h with hf
    exact .finish (alive_eq_some hx) hf (Fallible.toOption_eq_some.mp h)

/-- Make a call, and record it. -/
def record (s : Mem × List Touch) (o : Op) : Option (Mem × List Touch) :=
  (s.1.act o).map fun m => (m, s.2 ++ o.touches s.1 m)

theorem record_step {s t : Mem × List Touch} {o : Op} (h : record s o = some t) :
    traced.step s t := by
  obtain ⟨m, hm, rfl⟩ := Option.map_eq_some_iff.mp h
  exact ⟨_, act_touches hm, rfl⟩

/-- The first process writes to its page 1, the second one to its page 0; the `R` bits are
cleared, and the page 1 of the first process is read. -/
def touchOps : List Op := startOps ++
  [.request 2 0 1 'w', .request 3 1 0 'w', .clear, .request 4 0 1 'r', .unreserve 4]

theorem reachable_history_touched : ∃ m,
    TransitionSystem.playAll record (Mem.init, []) touchOps = some (m,
      [.load 0 0 false, .load 1 0 false, .load 0 1 true, .hit 1 0 true, .clear, .hit 0 1 false]) ∧
    ((m.heap 0).map fun x => (m.entry x 0, m.entry x 1)) =
      some (some ⟨false, false, 1, true⟩, some ⟨true, true, 4, true⟩) ∧
    ((m.heap 1).bind fun x => m.entry x 0) = some ⟨false, true, 3, true⟩ ∧
    m.History [.load 0 0 false, .load 1 0 false, .load 0 1 true, .hit 1 0 true, .clear,
      .hit 0 1 false] := by
  have hrun : (TransitionSystem.playAll record (Mem.init, []) touchOps).map (fun s =>
      (s.2, (s.1.heap 0).map fun x => (s.1.entry x 0, s.1.entry x 1))) = some
        ([.load 0 0 false, .load 1 0 false, .load 0 1 true, .hit 1 0 true, .clear, .hit 0 1 false],
          some (some ⟨false, false, 1, true⟩, some ⟨true, true, 4, true⟩)) := by
    decide +kernel
  have hrun' : (TransitionSystem.playAll record (Mem.init, []) touchOps).map (fun s =>
      (s.1.heap 1).bind fun x => s.1.entry x 0) = some (some ⟨false, true, 3, true⟩) := by
    decide +kernel
  obtain ⟨⟨m, h⟩, hm, he⟩ := Option.map_eq_some_iff.mp hrun
  obtain ⟨rfl, hfirst⟩ := Prod.mk.inj he
  rw [hm] at hrun'
  have hreach : traced.Reachable (m, _) :=
    TransitionSystem.Reachable.playAll (fun _ _ _ h => record_step h) (.init rfl) hm
  exact ⟨m, hm, hfirst, Option.some.inj hrun', reachable_history hreach⟩

end Mem

end CpuScheduler
