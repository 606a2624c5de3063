import CpuScheduler.Mmu.Basic

/-!
# Finding a process, and the checked accesses

`get_process` looks at `currProcess` and then walks `currentPCBs`. Over processes
with distinct ids the order of the search does not matter, and the search never
follows a dangling pointer: this is what `CpuScheduler.Mem.Wf` asks of a state and
`CpuScheduler.Mem.getProcess_live` concludes from it.

The rest of the file says what each checked access of `CpuScheduler.Mmu.Basic`
returns when it stays in bounds. `CpuScheduler.Mem.tableOf` and
`CpuScheduler.Mem.entry` read the page table of a process the way the C code does –
through the process's `frame_index` – and are what the statements about the MMU
speak of.
-/

namespace CpuScheduler

namespace Mem

variable {m m' : Mem} {p q : Ptr} {x y : PCB}

/-! ### Live processes -/

/-- `p` points to a PCB of the queue `currentPCBs`, which holds `x`. -/
def Live (m : Mem) (p : Ptr) (x : PCB) : Prop := p ∈ m.currentPCBs ∧ m.heap p = some x

theorem Live.unique (h : m.Live p x) (h' : m.Live p y) : x = y :=
  Option.some.inj (h.2.symm.trans h'.2)

/-- **The process table is well formed**: `currentPCBs` lists each live PCB once, none
of its pointers dangles, the running process is one of them, and their ids are
distinct. -/
structure Wf (m : Mem) : Prop where
  nodup : m.currentPCBs.Nodup
  alloc : ∀ {p}, p ∈ m.currentPCBs → ∃ x, m.heap p = some x
  cur : ∀ {p}, m.currProcess = some p → p ∈ m.currentPCBs
  ids : ∀ {p q x y}, m.Live p x → m.Live q y → x.id = y.id → p = q

theorem pcb_eq (h : m.heap p = some x) : m.pcb p = .ok x := by
  simp only [pcb, h]

theorem pcb_eq_ok : m.pcb p = .ok x ↔ m.heap p = some x := by
  unfold pcb
  cases h : m.heap p <;> simp

theorem idOf_eq (h : m.heap p = some x) : m.idOf p = .ok x.id := by
  rw [idOf, pcb_eq h, Fallible.ok_bind]

theorem setPcb_eq (h : m.heap p = some x) (g : PCB → PCB) :
    m.setPcb p g = .ok { m with heap := Function.update m.heap p (some (g x)) } := by
  rw [setPcb, pcb_eq h, Fallible.ok_bind]

/-! ### The search -/

/-- The search through the queue finds a process or walks to its end. -/
theorem findById_eq (halloc : ∀ {p}, p ∈ m.currentPCBs → ∃ x, m.heap p = some x) (id : ℤ) :
    ∀ l : List Ptr, (∀ p ∈ l, p ∈ m.currentPCBs) →
      (∃ p x, m.findById id l = .ok (some p) ∧ p ∈ l ∧ m.Live p x ∧ x.id = id) ∨
        (m.findById id l = .ok none ∧ ∀ p ∈ l, ∀ x, m.heap p = some x → x.id ≠ id)
  | [], _ => Or.inr ⟨rfl, fun p hp => nomatch hp⟩
  | p :: l, hl => by
    have hp : p ∈ m.currentPCBs := hl p List.mem_cons_self
    obtain ⟨x, hx⟩ := halloc hp
    have hstep : m.findById id (p :: l) =
        if x.id = id then .ok (some p) else m.findById id l := by
      rw [findById, idOf_eq hx, Fallible.ok_bind]
    by_cases hid : x.id = id
    · exact Or.inl ⟨p, x, by rw [hstep, if_pos hid], List.mem_cons_self, ⟨hp, hx⟩, hid⟩
    · rw [hstep, if_neg hid]
      rcases findById_eq halloc id l fun q hq => hl q (List.mem_cons_of_mem _ hq) with
        ⟨q, y, hf, hq, hy, hi⟩ | ⟨hf, hnone⟩
      · exact Or.inl ⟨q, y, hf, List.mem_cons_of_mem _ hq, hy, hi⟩
      · refine Or.inr ⟨hf, fun q hq y hy => ?_⟩
        rcases List.mem_cons.mp hq with rfl | hq
        · rw [← Option.some.inj (hx.symm.trans hy)]
          exact hid
        · exact hnone q hq y hy

/-- **`get_process` returns the live process with the id, or `NULL`.** -/
theorem getProcess_cases (h : m.Wf) (id : ℤ) :
    (∃ p x, m.getProcess id = .ok (some p) ∧ m.Live p x ∧ x.id = id) ∨
      (m.getProcess id = .ok none ∧ ∀ p x, m.Live p x → x.id ≠ id) := by
  have hlist := findById_eq h.alloc id m.currentPCBs fun _ hp => hp
  have hwalk : (∃ p x, m.findById id m.currentPCBs = .ok (some p) ∧ m.Live p x ∧ x.id = id) ∨
      (m.findById id m.currentPCBs = .ok none ∧ ∀ p x, m.Live p x → x.id ≠ id) := by
    rcases hlist with ⟨p, x, hf, -, hx, hi⟩ | ⟨hf, hnone⟩
    · exact Or.inl ⟨p, x, hf, hx, hi⟩
    · exact Or.inr ⟨hf, fun p x hx => hnone p hx.1 x hx.2⟩
  cases hc : m.currProcess with
  | none =>
    have hg : m.getProcess id = m.findById id m.currentPCBs := by
      simp only [getProcess, hc]
    rw [hg]
    exact hwalk
  | some p =>
    obtain ⟨x, hx⟩ := h.alloc (h.cur hc)
    have hg : m.getProcess id =
        if x.id = id then .ok (some p) else m.findById id m.currentPCBs := by
      simp only [getProcess, hc, idOf_eq hx, Fallible.ok_bind]
    by_cases hid : x.id = id
    · exact Or.inl ⟨p, x, by rw [hg, if_pos hid], ⟨h.cur hc, hx⟩, hid⟩
    · rw [hg, if_neg hid]
      exact hwalk

/-- **`get_process` finds every live process by its id.** -/
theorem getProcess_live (h : m.Wf) (hx : m.Live p x) : m.getProcess x.id = .ok (some p) := by
  rcases getProcess_cases h x.id with ⟨q, y, hg, hy, hid⟩ | ⟨-, hnone⟩
  · rw [hg, h.ids hy hx hid]
  · exact absurd rfl (hnone p x hx)

/-! ### Frames and page tables -/

/-- The frame number `i` is the frame `f`. -/
theorem frameAt_coe (f : Fin 32) : frameAt ((f : ℕ) : ℤ) = .ok f := by
  have h : 0 ≤ ((f : ℕ) : ℤ) ∧ ((f : ℕ) : ℤ) < 32 := by
    have := f.isLt
    omega
  rw [frameAt, dif_pos h]
  rfl

theorem frameAt_eq_ok {i : ℤ} {f : Fin 32} : frameAt i = .ok f ↔ i = ((f : ℕ) : ℤ) := by
  constructor
  · intro h
    unfold frameAt at h
    split_ifs at h with hi
    rw [← Except.ok.inj h]
    exact (Int.toNat_of_nonneg hi.1).symm
  · rintro rfl
    exact frameAt_coe f

theorem coe_inj {f g : Fin 32} (h : ((f : ℕ) : ℤ) = ((g : ℕ) : ℤ)) : f = g :=
  Fin.ext (by exact_mod_cast h)

theorem tableAt_eq {f : Fin 32} {pt : List PTE} (h : (m.RAM f).pte = some pt) :
    m.tableAt f = .ok pt := by
  simp only [tableAt, h]

theorem tableAt_eq_ok {f : Fin 32} {pt : List PTE} :
    m.tableAt f = .ok pt ↔ (m.RAM f).pte = some pt := by
  unfold tableAt
  cases h : (m.RAM f).pte <;> simp

/-- An entry of a page table, if the index is one of its positions. -/
def entryOf (pt : List PTE) (v : ℤ) : Option PTE := if 0 ≤ v then pt[v.toNat]? else none

theorem entryAt_eq_ok {pt : List PTE} {v : ℤ} {e : PTE} :
    entryAt pt v = .ok e ↔ entryOf pt v = some e := by
  unfold entryAt entryOf
  by_cases h0 : 0 ≤ v
  · by_cases hl : v.toNat < pt.length
    · simp [h0, hl]
    · simp [h0, hl]
  · simp [h0]

/-- **An access fails exactly outside the table.** -/
theorem entryAt_eq_error {pt : List PTE} {v : ℤ} {err : Fault} :
    entryAt pt v = .error err ↔ err = .outOfBounds ∧ ¬(0 ≤ v ∧ v < pt.length) := by
  unfold entryAt
  split_ifs with h
  · constructor
    · intro hc
      exact nomatch hc
    · rintro ⟨-, hc⟩
      exact absurd ⟨h.1, by omega⟩ hc
  · simp only [Except.error.injEq]
    constructor
    · rintro rfl
      exact ⟨rfl, fun hc => h ⟨hc.1, by omega⟩⟩
    · rintro ⟨rfl, -⟩
      rfl

/-- An entry exists exactly at the positions of the table. -/
theorem entryOf_isSome {pt : List PTE} {v : ℤ} :
    (∃ e, entryOf pt v = some e) ↔ 0 ≤ v ∧ v < pt.length := by
  unfold entryOf
  by_cases h0 : 0 ≤ v
  · rw [if_pos h0]
    constructor
    · rintro ⟨e, he⟩
      have := (List.getElem?_eq_some_iff.mp he).1
      omega
    · rintro ⟨-, hl⟩
      exact ⟨_, List.getElem?_eq_getElem (by omega)⟩
  · simp [h0]

theorem entryOf_nonneg {pt : List PTE} {v : ℤ} {e : PTE} (h : entryOf pt v = some e) : 0 ≤ v :=
  (entryOf_isSome.mp ⟨e, h⟩).1

/-- Writing an entry and reading it back. -/
theorem entryOf_set {pt : List PTE} {v w : ℤ} {e e' : PTE} (hv : entryOf pt v = some e) :
    entryOf (pt.set v.toNat e') w = if w = v then some e' else entryOf pt w := by
  have h0 := entryOf_nonneg hv
  have hl : v.toNat < pt.length := by
    have := (entryOf_isSome.mp ⟨e, hv⟩).2
    omega
  unfold entryOf
  by_cases hw : 0 ≤ w
  · rw [if_pos hw, if_pos hw]
    by_cases h : w = v
    · subst h
      rw [if_pos rfl, List.getElem?_set_self hl]
    · rw [if_neg h, List.getElem?_set_ne (by omega)]
  · rw [if_neg hw, if_neg hw, if_neg (by omega)]

/-- The state after an entry of the table in `f` has been written. -/
def setEntry (m : Mem) (f : Fin 32) (pt : List PTE) (v : ℤ) (e : PTE) : Mem :=
  m.setFrame f fun fr => { fr with pte := some (pt.set v.toNat e) }

theorem writePte_eq {f : Fin 32} {pt : List PTE} {v : ℤ} {e : PTE} (g : PTE → PTE)
    (hpt : (m.RAM f).pte = some pt) (he : entryOf pt v = some e) :
    m.writePte f v g = .ok (m.setEntry f pt v (g e)) := by
  rw [writePte, frameAt_coe, Fallible.ok_bind, tableAt_eq hpt, Fallible.ok_bind,
    entryAt_eq_ok.mpr he, Fallible.ok_bind, setEntry]

/-- The page table of a process: what the frame its `frame_index` names holds. -/
def tableOf (m : Mem) (x : PCB) : Option (List PTE) :=
  if h : 0 ≤ x.frameIndex ∧ x.frameIndex < 32 then
    (m.RAM ⟨x.frameIndex.toNat, by omega⟩).pte else none

/-- The entry of a process's page table for a page. -/
def entry (m : Mem) (x : PCB) (v : ℤ) : Option PTE := (m.tableOf x).bind fun pt => entryOf pt v

theorem tableOf_eq {f : Fin 32} (h : x.frameIndex = f) : m.tableOf x = (m.RAM f).pte := by
  have hb : 0 ≤ x.frameIndex ∧ x.frameIndex < 32 := by
    have := f.isLt
    omega
  have hf : (⟨x.frameIndex.toNat, by omega⟩ : Fin 32) = f := Fin.ext (by simp [h])
  rw [tableOf, dif_pos hb, hf]

theorem entry_eq {f : Fin 32} {pt : List PTE} (h : x.frameIndex = f)
    (hpt : (m.RAM f).pte = some pt) (v : ℤ) : m.entry x v = entryOf pt v := by
  rw [entry, tableOf_eq h, hpt, Option.bind_some]

/-- Of a PCB, only `frame_index` matters for the page table. -/
theorem entry_eq_of_index (h : x.frameIndex = y.frameIndex) (v : ℤ) :
    m.entry x v = m.entry y v := by
  simp only [entry, tableOf, h]

/-- A page table that can be read is in some frame. -/
theorem entry_eq_some {v : ℤ} {e : PTE} (h : m.entry x v = some e) :
    ∃ (f : Fin 32) (pt : List PTE), x.frameIndex = f ∧ (m.RAM f).pte = some pt ∧
      entryOf pt v = some e := by
  obtain ⟨pt, hpt, he⟩ := Option.bind_eq_some_iff.mp h
  unfold tableOf at hpt
  split_ifs at hpt with hb
  exact ⟨⟨x.frameIndex.toNat, by omega⟩, pt, by simp [hb.1], hpt, he⟩

/-- The entry of a process is read from the frame its `frame_index` names, and from
nowhere else. -/
theorem entry_congr (h : ∀ f : Fin 32, x.frameIndex = f → (m'.RAM f).pte = (m.RAM f).pte) (v : ℤ) :
    m'.entry x v = m.entry x v := by
  unfold entry tableOf
  split_ifs with hb
  · rw [h ⟨x.frameIndex.toNat, by omega⟩ (by simp [hb.1])]
  · rfl

/-- **Writing one entry**, as every process sees it. -/
theorem entry_setEntry {f : Fin 32} {pt : List PTE} {v : ℤ} {e e' : PTE}
    (hpt : (m.RAM f).pte = some pt) (he : entryOf pt v = some e) (y : PCB) (u : ℤ) :
    (m.setEntry f pt v e').entry y u =
      if y.frameIndex = f ∧ u = v then some e' else m.entry y u := by
  by_cases hy : y.frameIndex = f
  · have hnew : ((m.setEntry f pt v e').RAM f).pte = some (pt.set v.toNat e') := by
      simp only [setEntry, setFrame, Function.update_self]
    rw [entry_eq hy hnew, entry_eq hy hpt, entryOf_set he]
    simp only [hy, true_and]
  · rw [if_neg fun h => hy h.1]
    refine entry_congr (fun g hg => ?_) u
    have hgf : g ≠ f := fun h => hy (h ▸ hg)
    simp only [setEntry, setFrame, Function.update_of_ne hgf]

/-! ### Writes, field by field -/

@[simp] theorem setFrame_RAM (m : Mem) (f : Fin 32) (g : Frame → Frame) :
    (m.setFrame f g).RAM = Function.update m.RAM f (g (m.RAM f)) := rfl

@[simp] theorem setFrame_heap (m : Mem) (f : Fin 32) (g : Frame → Frame) :
    (m.setFrame f g).heap = m.heap := rfl

@[simp] theorem setFrame_brk (m : Mem) (f : Fin 32) (g : Frame → Frame) :
    (m.setFrame f g).brk = m.brk := rfl

@[simp] theorem setFrame_currentPCBs (m : Mem) (f : Fin 32) (g : Frame → Frame) :
    (m.setFrame f g).currentPCBs = m.currentPCBs := rfl

@[simp] theorem setFrame_currProcess (m : Mem) (f : Fin 32) (g : Frame → Frame) :
    (m.setFrame f g).currProcess = m.currProcess := rfl

@[simp] theorem setEntry_heap (m : Mem) (f : Fin 32) (pt : List PTE) (v : ℤ) (e : PTE) :
    (m.setEntry f pt v e).heap = m.heap := rfl

@[simp] theorem setEntry_brk (m : Mem) (f : Fin 32) (pt : List PTE) (v : ℤ) (e : PTE) :
    (m.setEntry f pt v e).brk = m.brk := rfl

@[simp] theorem setEntry_currentPCBs (m : Mem) (f : Fin 32) (pt : List PTE) (v : ℤ) (e : PTE) :
    (m.setEntry f pt v e).currentPCBs = m.currentPCBs := rfl

@[simp] theorem setEntry_currProcess (m : Mem) (f : Fin 32) (pt : List PTE) (v : ℤ) (e : PTE) :
    (m.setEntry f pt v e).currProcess = m.currProcess := rfl

@[simp] theorem logLine_RAM (m : Mem) (l : MemLine) : (m.logLine l).RAM = m.RAM := rfl

@[simp] theorem logLine_heap (m : Mem) (l : MemLine) : (m.logLine l).heap = m.heap := rfl

@[simp] theorem logLine_brk (m : Mem) (l : MemLine) : (m.logLine l).brk = m.brk := rfl

@[simp] theorem logLine_currentPCBs (m : Mem) (l : MemLine) :
    (m.logLine l).currentPCBs = m.currentPCBs := rfl

@[simp] theorem logLine_currProcess (m : Mem) (l : MemLine) :
    (m.logLine l).currProcess = m.currProcess := rfl

@[simp] theorem logIf_RAM (m : Mem) (c : Bool) (l : MemLine) : (m.logIf c l).RAM = m.RAM := by
  cases c <;> rfl

@[simp] theorem logIf_heap (m : Mem) (c : Bool) (l : MemLine) :
    (m.logIf c l).heap = m.heap := by
  cases c <;> rfl

@[simp] theorem logIf_brk (m : Mem) (c : Bool) (l : MemLine) : (m.logIf c l).brk = m.brk := by
  cases c <;> rfl

@[simp] theorem logIf_currentPCBs (m : Mem) (c : Bool) (l : MemLine) :
    (m.logIf c l).currentPCBs = m.currentPCBs := by
  cases c <;> rfl

@[simp] theorem logIf_currProcess (m : Mem) (c : Bool) (l : MemLine) :
    (m.logIf c l).currProcess = m.currProcess := by
  cases c <;> rfl

end Mem

end CpuScheduler
