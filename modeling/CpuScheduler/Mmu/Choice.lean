import CpuScheduler.Mmu.Allocation

/-!
# Which frame a fault takes

`fault_handler` goes through the frames once. It stops at the first free one; on the way it
keeps the first frame of the lowest class `2 * R + M` it has seen among those that hold a
page that is not reserved. So the choice is: the lowest free frame, or else the lowest frame of
the lowest class (`CpuScheduler.Mem.scan_free_iff`, `CpuScheduler.Mem.scan_victim_iff`).

What it leaves behind is described as a whole by `CpuScheduler.Mem.BroughtIn`: the frame it
took, the entry it wrote, the PCB of the process, and that everything else is as before. An
eviction differs from a free frame by one more entry
(`CpuScheduler.Mem.faultHandler_demand_chooses`).
-/

namespace CpuScheduler

namespace Mem

variable {m m' : Mem} {p q : Ptr} {x y z : PCB} {f i j : Fin 32} {v : ℤ} {c : Char} {clk : Clk}
  {RAM : Fin 32 → Frame}

instance (fr : Frame) : Decidable fr.Takeable :=
  inferInstanceAs (Decidable (fr.pte = none ∧ fr.reserved = false))

/-! ### The choice -/

/-- The lowest free frame. -/
def LowestFree (RAM : Fin 32 → Frame) (i : Fin 32) : Prop :=
  (RAM i).occupied = false ∧ ∀ j < i, (RAM j).occupied = true

/-- The lowest frame of the lowest class, when no frame is free. -/
def LowestVictim (RAM : Fin 32 → Frame) (i : Fin 32) : Prop :=
  (∀ j, (RAM j).occupied = true) ∧ (RAM i).Takeable ∧ ∀ j, (RAM j).Takeable →
    frameClass (RAM i) ≤ frameClass (RAM j) ∧ (j < i → frameClass (RAM i) < frameClass (RAM j))

/-- A scan that stops at a frame has gone over those in front of it. -/
theorem scanFrom_free {l : List (Fin 32)} {cls : ℕ} {w : Option (Fin 32)}
    (h : scanFrom RAM l cls w = .free i) :
    ∃ pre post, l = pre ++ i :: post ∧ ∀ j ∈ pre, (RAM j).occupied = true := by
  induction l generalizing cls w with
  | nil => cases w <;> exact nomatch h
  | cons j l ih =>
    have hnext : ∀ {cls w}, scanFrom RAM l cls w = .free i → (RAM j).occupied = true →
        ∃ pre post, j :: l = pre ++ i :: post ∧ ∀ j ∈ pre, (RAM j).occupied = true := by
      intro cls w h hocc
      obtain ⟨pre, post, rfl, hpre⟩ := ih h
      exact ⟨j :: pre, post, rfl, List.forall_mem_cons.mpr ⟨hocc, hpre⟩⟩
    unfold scanFrom at h
    split_ifs at h with hfree hskip hcls
    · exact ⟨[], l, by rw [ScanResult.free.inj h, List.nil_append], List.forall_mem_nil _⟩
    · exact hnext h (by simpa using hfree)
    · exact hnext h (by simpa using hfree)
    · exact hnext h (by simpa using hfree)

/-- The frame `i` beats those in front of it in `l`, and those behind do not beat it. -/
def Beats (RAM : Fin 32 → Frame) (l : List (Fin 32)) (i : Fin 32) : Prop :=
  ∃ pre post, l = pre ++ i :: post ∧
    (∀ j ∈ pre, (RAM j).Takeable → frameClass (RAM i) < frameClass (RAM j)) ∧
    ∀ j ∈ post, (RAM j).Takeable → frameClass (RAM i) ≤ frameClass (RAM j)

/-- A scan that comes to its end with a victim: it kept the one that it began with, or found
a better one. -/
theorem scanFrom_victim {l : List (Fin 32)} {cls : ℕ} {w : Option (Fin 32)}
    (h : scanFrom RAM l cls w = .victim i) :
    (w = some i ∧ ∀ j ∈ l, (RAM j).Takeable → cls ≤ frameClass (RAM j)) ∨
      (frameClass (RAM i) < cls ∧ Beats RAM l i) := by
  induction l generalizing cls w with
  | nil =>
    cases w with
    | none => cases h
    | some w => exact Or.inl ⟨congrArg some (ScanResult.victim.inj h), List.forall_mem_nil _⟩
  | cons j l ih =>
    -- the scan goes on past `j`, which does not beat what the scan has
    have hpast : ∀ {w}, scanFrom RAM l cls w = .victim i →
        ((RAM j).Takeable → cls ≤ frameClass (RAM j)) →
        (w = some i ∧ ∀ j' ∈ j :: l, (RAM j').Takeable → cls ≤ frameClass (RAM j')) ∨
          (frameClass (RAM i) < cls ∧ Beats RAM (j :: l) i) := by
      intro w h hj
      rcases ih h with ⟨hw, hl⟩ | ⟨hlt, pre, post, rfl, hpre, hpost⟩
      · exact Or.inl ⟨hw, List.forall_mem_cons.mpr ⟨hj, hl⟩⟩
      · exact Or.inr ⟨hlt, j :: pre, post, rfl,
          List.forall_mem_cons.mpr ⟨fun hc => hlt.trans_le (hj hc), hpre⟩, hpost⟩
    unfold scanFrom at h
    split_ifs at h with hfree hskip hcls
    · refine hpast h fun hc => ?_
      rcases Bool.or_eq_true_iff.mp hskip with hp | hr
      · exact absurd hc.1 (Option.isSome_iff_ne_none.mp hp)
      · exact absurd (hc.2.symm.trans hr) (by simp)
    · rcases ih h with ⟨hj, hl⟩ | ⟨hlt, pre, post, rfl, hpre, hpost⟩
      · obtain rfl := Option.some.inj hj
        exact Or.inr ⟨hcls, [], l, rfl, List.forall_mem_nil _, hl⟩
      · exact Or.inr ⟨hlt.trans hcls, j :: pre, post, rfl,
          List.forall_mem_cons.mpr ⟨fun _ => hlt, hpre⟩, hpost⟩
    · exact hpast h fun _ => not_lt.mp hcls

/-- In the list of all frames the lower ones are in front. -/
theorem finRange_split {pre post : List (Fin 32)} (h : List.finRange 32 = pre ++ i :: post) :
    (∀ j, j < i → j ∈ pre) ∧ ∀ j, j ∈ pre ∨ j = i ∨ j ∈ post := by
  have hsorted : (pre ++ i :: post).Pairwise (· < ·) := h ▸ List.pairwise_lt_finRange 32
  obtain ⟨-, hpost, -⟩ := List.pairwise_append.mp hsorted
  obtain ⟨hi, -⟩ := List.pairwise_cons.mp hpost
  have hmem : ∀ j, j ∈ pre ∨ j = i ∨ j ∈ post := fun j => by
    have hj := h ▸ List.mem_finRange j
    rwa [List.mem_append, List.mem_cons] at hj
  refine ⟨fun j hj => ?_, hmem⟩
  rcases hmem j with hpre | rfl | hpost
  · exact hpre
  · exact absurd hj (lt_irrefl j)
  · exact absurd hj (hi j hpost).not_gt

theorem scan_lowestFree (h : scan RAM = .free i) : LowestFree RAM i := by
  obtain ⟨pre, post, hsplit, hpre⟩ := scanFrom_free h
  exact ⟨scan_free h, fun j hj => hpre j ((finRange_split hsplit).1 j hj)⟩

theorem scan_lowestVictim (h : scan RAM = .victim i) : LowestVictim RAM i := by
  obtain ⟨hpte, hres, hocc⟩ := scan_victim h
  obtain ⟨-, pre, post, hsplit, hpre, hpost⟩ :=
    (scanFrom_victim h).resolve_left fun h => nomatch h.1
  obtain ⟨hlow, hmem⟩ := finRange_split hsplit
  refine ⟨hocc, ⟨hpte, hres⟩, fun j hc => ⟨?_, fun hj => hpre j (hlow j hj) hc⟩⟩
  rcases hmem j with hj | rfl | hj
  · exact (hpre j hj hc).le
  · exact le_rfl
  · exact hpost j hj hc

/-- There is one lowest free frame at most, -/
theorem LowestFree.unique (hi : LowestFree RAM i) (hj : LowestFree RAM j) : i = j := by
  rcases lt_trichotomy i j with h | rfl | h
  · exact nomatch hi.1.symm.trans (hj.2 i h)
  · rfl
  · exact nomatch hj.1.symm.trans (hi.2 j h)

/-- and one lowest victim. -/
theorem LowestVictim.unique (hi : LowestVictim RAM i) (hj : LowestVictim RAM j) : i = j := by
  have hij := (hi.2.2 j hj.2.1).1
  have hji := (hj.2.2 i hi.2.1).1
  rcases lt_trichotomy i j with h | rfl | h
  · exact absurd ((hj.2.2 i hi.2.1).2 h) hij.not_gt
  · rfl
  · exact absurd ((hi.2.2 j hj.2.1).2 h) hji.not_gt

/-- **The scan stops at the lowest free frame.** -/
theorem scan_free_iff : scan RAM = .free i ↔ LowestFree RAM i := by
  refine ⟨scan_lowestFree, fun h => ?_⟩
  cases hs : scan RAM with
  | free j => rw [h.unique (scan_lowestFree hs)]
  | victim j => exact nomatch h.1.symm.trans ((scan_lowestVictim hs).1 i)
  | nothing => exact nomatch h.1.symm.trans (scan_nothing.mp hs i).1

/-- **The victim is the lowest frame of the lowest class.** -/
theorem scan_victim_iff : scan RAM = .victim i ↔ LowestVictim RAM i := by
  refine ⟨scan_lowestVictim, fun h => ?_⟩
  cases hs : scan RAM with
  | free j => exact nomatch (scan_free hs).symm.trans (h.1 j)
  | victim j => rw [h.unique (scan_lowestVictim hs)]
  | nothing => exact absurd hs (scan_ne_nothing h.2.1)

/-! ### What it leaves behind -/

/-- The frame of a page that has been brought in for a demand fault. -/
def reservedFor (x : PCB) (v : ℤ) (w : Bool) : Frame where
  R := true
  M := w
  processId := x.id
  pte := none
  occupied := true
  vpage := v
  reserved := true

/-- **Page `v` of the process `x` has been brought into the frame `i`.** Where the entries
were `old`, one has been written; one frame has been filled; one PCB has changed, in its state
and in the fields of the fault. -/
structure BroughtIn (m m' : Mem) (p : Ptr) (x : PCB) (v : ℤ) (i : Fin 32) (w : Bool)
    (old : PCB → ℤ → Option PTE) : Prop where
  frame : m'.RAM i = reservedFor x v w
  frames : ∀ f, f ≠ i →
    (m'.RAM f).shape = (m.RAM f).shape ∧ (m'.RAM f).bits = (m.RAM f).bits
  entry : ∀ y u, m'.entry y u =
    if y.frameIndex = x.frameIndex ∧ u = v then
      some { R := true, M := w, frameAddress := i, valid := true }
    else old y u
  self : ∃ t, m'.heap p = some
    { x with state := .B, unblockAt := t, pendingPage := v, pendingFrame := i }
  pcbs : ∀ q, q ≠ p → m'.heap q = m.heap q
  brk : m'.brk = m.brk
  lists : m'.currentPCBs = m.currentPCBs ∧ m'.currProcess = m.currProcess

/-- A frame that holds a loaded page and is reserved. -/
theorem Loaded.frame_eq {w : Bool} (h : Loaded m m' x v i w) (hres : (m'.RAM i).reserved = true) :
    m'.RAM i = reservedFor x v w := by
  obtain ⟨⟨hocc, hpte, hpid, hv⟩, hR, hM, -, -, -⟩ := h
  cases hfr : m'.RAM i
  rw [hfr] at hocc hpte hpid hv hR hM hres
  simp only at hocc hpte hpid hv hR hM hres
  rw [hocc, hpte, hpid, hv, hR, hM, hres]
  rfl

theorem blockedUntil_of_lt (x : PCB) (t : ℤ) (hv : v < 64) :
    blockedUntil x t v = { x with state := .B, unblockAt := t } := by
  have hb : blocks .demand v = true := by simp only [blocks, hv, decide_true, Bool.and_self]
  rw [blockedUntil, if_pos hb]

/-- A loaded page, in terms of the frames and the entries before. -/
theorem Loaded.broughtIn {w : Bool} {t : ℤ} {r : Fin 32 → Frame} {old : PCB → ℤ → Option PTE}
    (h : Loaded { m with RAM := r } m' x v i w) (hv : v < 64)
    (hr : ∀ f, f ≠ i → (r f).shape = (m.RAM f).shape ∧ (r f).bits = (m.RAM f).bits)
    (hold : ∀ y u, ({ m with RAM := r } : Mem).entry y u = old y u)
    (ho : FramesOnly (m.withPcb p { blockedUntil x t v with
      pendingPage := v, pendingFrame := i }) m') (hres : (m'.RAM i).reserved = true) :
    BroughtIn m m' p x v i w old where
  frame := h.frame_eq hres
  frames f hf := ⟨(h.shape f hf).trans (hr f hf).1, (h.bits f hf).trans (hr f hf).2⟩
  entry y u := by rw [h.entry, hold]
  self := ⟨t, by rw [ho.heap, withPcb_heap_self, blockedUntil_of_lt x t hv]⟩
  pcbs q hq := by rw [ho.heap, withPcb_heap_of_ne hq]
  brk := ho.brk
  lists := ⟨ho.pcbs, ho.cur⟩

/-- **A demand fault takes the lowest free frame, and else evicts the lowest page of the lowest
class.** With a free frame the changes are that frame, the entry of the page and the PCB of
the process; an eviction also empties the entry of the page it evicts, which was valid and is
another one. Where no frame can be taken only the PCB has changed. -/
theorem faultHandler_demand_chooses (clk : Clk) (raw : List Char) (c : Char)
    (h : m.Consistent) (hx : m.Live p x) (hf : x.frameIndex ≠ -1) (h0 : 0 ≤ v)
    (hv : v < x.limit) (hlim : x.limit ≤ 64) (hout : ∀ e, m.entry x v = some e → e.valid = false) :
    ∃ m', m.faultHandler clk x.id v .demand raw c = .ok m' ∧
      ((∃ i, LowestFree m.RAM i ∧ BroughtIn m m' p x v i (c = 'w') m.entry) ∨
      (∃ i q z e, LowestVictim m.RAM i ∧ m.Live q z ∧ z.id = (m.RAM i).processId ∧
        m.entry z (m.RAM i).vpage = some e ∧ e.valid = true ∧ e.frameAddress = ((i : ℕ) : ℤ) ∧
        ¬(z.frameIndex = x.frameIndex ∧ (m.RAM i).vpage = v) ∧
        BroughtIn m m' p x v i (c = 'w') fun y u =>
          if y.frameIndex = z.frameIndex ∧ u = (m.RAM i).vpage then some PTE.empty
          else m.entry y u) ∨
      ((∀ i, (m.RAM i).occupied = true ∧ ¬(m.RAM i).Takeable) ∧ m'.RAM = m.RAM ∧
        ∀ q, q ≠ p → m'.heap q = m.heap q)) := by
  have hsmall : swapPage .demand v = v := by rw [swapPage_demand, if_pos (by omega)]
  obtain ⟨f, -, hxf⟩ := h.tableAt hx hf
  obtain ⟨e, he⟩ := hxf.entry_some h0 hv
  cases hs : scan m.RAM with
  | free i =>
    obtain ⟨m', hm', ho, hin, hres⟩ := faultHandler_demand_free clk raw (c := c) h.toPlaced hx hxf
      he hs
    refine ⟨m', hm', Or.inl ⟨i, scan_lowestFree hs, ?_⟩⟩
    cases hin with
    | free hocc hl => exact hl.broughtIn (by omega) (fun f _ => ⟨rfl, rfl⟩) (fun _ _ => rfl) ho hres
    | evict hocc _ _ _ _ _ _ => exact nomatch hocc.symm.trans (scan_free hs)
  | victim i =>
    obtain ⟨m', hm', ho, hin, hres⟩ := faultHandler_demand_victim clk raw (c := c) h.toPlaced hx hxf
      (hsmall.symm ▸ he) hs
    rw [hsmall] at ho hin
    refine ⟨m', hm', Or.inr (Or.inl ?_)⟩
    cases hin with
    | free hocc _ => exact nomatch hocc.symm.trans ((scan_victim hs).2.2 i)
    | @evict q z r hocc hpte hnres hz hid hev hl =>
      obtain ⟨e', he', hval, hfa⟩ := h.held trivial hocc hpte hz hid
      refine ⟨i, q, z, e', scan_lowestVictim hs, hz, hid.symm, he', hval, hfa, ?_, ?_⟩
      · -- the page that is brought in was not in a frame
        rintro ⟨hzx, hvp⟩
        rw [hvp, entry_eq_of_index hzx] at he'
        exact nomatch (hout e' he').symm.trans hval
      · exact hl.broughtIn (by omega) (fun f _ => ⟨hev.shape f, hev.bits f⟩) hev.entry ho hres
  | nothing =>
    refine ⟨_, faultHandler_demand_nothing clk raw h.wf hx hs, Or.inr (Or.inr ⟨fun i => ?_, rfl,
      fun q hq => withPcb_heap_of_ne hq _⟩)⟩
    obtain ⟨hocc, hno⟩ := scan_nothing.mp hs i
    refine ⟨hocc, fun ht => ?_⟩
    rcases hno with hp | hr
    · exact hp ht.1
    · exact nomatch hr.symm.trans ht.2

/-- Page 1 of the first of two processes that have just started goes into the free frame 4. When
the memory is full, its page 29 takes the frame 3 from the page 0 of the second process, which
loses its entry. -/
theorem faultHandler_demand_chooses_both :
    (∃ m x m', TransitionSystem.playAll act Mem.init startOps = some m ∧ m.heap 0 = some x ∧
      m.faultHandler (fun _ => 2) x.id 1 .demand [] 'r' = .ok m' ∧
      BroughtIn m m' 0 x 1 4 false m.entry) ∧
    ∃ m x z m', TransitionSystem.playAll act Mem.init (fillOps ++ [.request 3 0 0 'w']) = some m ∧
      m.heap 0 = some x ∧ m.Live 1 z ∧
      m.faultHandler (fun _ => 3) x.id 29 .demand [] 'w' = .ok m' ∧
      BroughtIn m m' 0 x 29 3 true fun y u =>
        if y.frameIndex = z.frameIndex ∧ u = 0 then some PTE.empty else m.entry y u := by
  have hreach : ∀ {l m}, TransitionSystem.playAll act Mem.init l = some m → Inv m := fun h =>
    reachable_inv (TransitionSystem.Reachable.playAll (fun _ _ _ h => act_step h) (.init rfl) h)
  constructor
  · have hrun : (TransitionSystem.playAll act Mem.init startOps).bind (fun m =>
        (m.alive 0).map fun x => (scan m.RAM, x.frameIndex, x.limit,
          (m.entry x 1).map PTE.valid)) = some (.free 4, 0, 40, some false) := by
      decide +kernel
    obtain ⟨m, hm, hrun⟩ := Option.bind_eq_some_iff.mp hrun
    obtain ⟨x, hx, he⟩ := Option.map_eq_some_iff.mp hrun
    simp only [Prod.mk.injEq] at he
    obtain ⟨hscan, hf, hlim, hval⟩ := he
    have hlow := scan_lowestFree hscan
    obtain ⟨m', hm', ⟨i, hi, hin⟩ | ⟨i, q, z, e, hi, -⟩ | ⟨hno, -⟩⟩ :=
      faultHandler_demand_chooses (fun _ => 2) [] 'r' (hreach hm).consistent (alive_eq_some hx)
        (v := 1) (by rw [hf]; decide) (by decide) (by rw [hlim]; decide) (by rw [hlim]; decide)
        fun e he => by rw [he] at hval; exact Option.some.inj hval
    · obtain rfl := hi.unique hlow
      exact ⟨m, x, m', hm, (alive_eq_some hx).2, hm', hin⟩
    · exact nomatch hlow.1.symm.trans (hi.1 4)
    · exact nomatch hlow.1.symm.trans (hno 4).1
  · have hrun : (TransitionSystem.playAll act Mem.init (fillOps ++ [.request 3 0 0 'w'])).bind
        (fun m => (m.alive 0).map fun x => (scan m.RAM, x.frameIndex, x.limit,
          (m.entry x 29).map PTE.valid, (m.RAM 3).processId, (m.RAM 3).vpage)) =
        some (.victim 3, 0, 40, some false, 2, 0) := by
      decide +kernel
    have hother : ((TransitionSystem.playAll act Mem.init (fillOps ++ [.request 3 0 0 'w'])).bind
        fun m => m.alive 1).map PCB.id = some 2 := by
      decide +kernel
    obtain ⟨m, hm, hrun⟩ := Option.bind_eq_some_iff.mp hrun
    obtain ⟨x, hx, he⟩ := Option.map_eq_some_iff.mp hrun
    rw [hm, Option.bind_some] at hother
    obtain ⟨z, hz, hid⟩ := Option.map_eq_some_iff.mp hother
    simp only [Prod.mk.injEq] at he
    obtain ⟨hscan, hf, hlim, hval, hpid, hpage⟩ := he
    have hlow := scan_lowestVictim hscan
    obtain ⟨m', hm', ⟨i, hi, hin⟩ | ⟨i, q, y, e, hi, hy, hyid, -, -, -, -, hin⟩ | ⟨hno, -⟩⟩ :=
      faultHandler_demand_chooses (fun _ => 3) [] 'w' (hreach hm).consistent (alive_eq_some hx)
        (v := 29) (by rw [hf]; decide) (by decide) (by rw [hlim]; decide) (by rw [hlim]; decide)
        fun e he => by rw [he] at hval; exact Option.some.inj hval
    · exact nomatch hi.1.symm.trans (hlow.1 i)
    · obtain rfl := hi.unique hlow
      -- the owner of the frame is the second process
      have hq : q = 1 := (hreach hm).consistent.wf.ids hy (alive_eq_some hz)
        ((hyid.trans hpid).trans hid.symm)
      subst hq
      obtain rfl := Option.some.inj (hy.2.symm.trans (alive_eq_some hz).2)
      rw [hpage] at hin
      exact ⟨m, x, y, m', hm, (alive_eq_some hx).2, hy, hm', hin⟩
    · exact absurd hlow.2.1 (hno 3).2

end Mem

end CpuScheduler
