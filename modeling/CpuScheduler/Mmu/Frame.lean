import CpuScheduler.Mmu.Basic

/-!
# What the memory functions leave alone

Whatever the state they are called in, the memory functions neither create nor free
a process, do not touch `currentPCBs` and `currProcess`, and write only the memory
fields of a PCB – with one exception, the state of a process whose demand fault
blocks it. And none of them takes anything out of an empty queue. This is all that
the scheduling side of the development needs to know of them, and it needs no
invariant.
-/

namespace CpuScheduler

/-- A PCB without the fields that the memory functions write. -/
def PCB.core (x : PCB) : PCB :=
  { x with state := .W, frameIndex := 0, unblockAt := 0, pendingPage := 0, pendingFrame := 0 }

namespace Mem

open Fallible

variable {m m' : Mem} {p : Ptr} {x : PCB} {f i : Fin 32} {c : Char} {clk : Clk} {id page : ℤ}
  {pid : Option ℤ}

/-- The PCB `y` differs from `x` in memory fields only, and in its state only if it is
the process `pid` and has been blocked. -/
def CoreEq (pid : Option ℤ) (x y : PCB) : Prop :=
  y.core = x.core ∧ (y.state = x.state ∨ (y.state = .B ∧ pid = some x.id))

/-- The state `m'` differs from `m` in frames, log and memory fields only. -/
structure Keeps (pid : Option ℤ) (m m' : Mem) : Prop where
  brk : m'.brk = m.brk
  pcbs : m'.currentPCBs = m.currentPCBs
  cur : m'.currProcess = m.currProcess
  none : ∀ {p}, m.heap p = none → m'.heap p = none
  pcb : ∀ {p x}, m.heap p = some x → ∃ y, m'.heap p = some y ∧ CoreEq pid x y

/-- Not the `exit(1)` of an empty queue. -/
def NotUnderflow (e : Fault) : Prop := e ≠ .underflow

theorem CoreEq.refl (x : PCB) : CoreEq pid x x := ⟨rfl, Or.inl rfl⟩

theorem core_id {x y : PCB} (h : y.core = x.core) : y.id = x.id := by
  have : y.core.id = x.core.id := by rw [h]
  exact this

theorem CoreEq.trans {x y z : PCB} (h : CoreEq pid x y) (h' : CoreEq pid y z) :
    CoreEq pid x z := by
  refine ⟨h'.1.trans h.1, ?_⟩
  rcases h'.2 with he | ⟨hB, hp⟩
  · exact h.2.imp he.trans fun hb => ⟨he.trans hb.1, hb.2⟩
  · exact Or.inr ⟨hB, by rw [hp, core_id h.1]⟩

theorem Keeps.refl (m : Mem) : Keeps pid m m := ⟨rfl, rfl, rfl, id, fun h => ⟨_, h, CoreEq.refl _⟩⟩

theorem Keeps.trans {m₁ m₂ m₃ : Mem} (h : Keeps pid m₁ m₂) (h' : Keeps pid m₂ m₃) :
    Keeps pid m₁ m₃ := by
  refine ⟨h'.brk.trans h.brk, h'.pcbs.trans h.pcbs, h'.cur.trans h.cur,
    fun hn => h'.none (h.none hn), fun hx => ?_⟩
  obtain ⟨y, hy, hxy⟩ := h.pcb hx
  obtain ⟨z, hz, hyz⟩ := h'.pcb hy
  exact ⟨z, hz, hxy.trans hyz⟩

/-- An operation that leaves the scheduling side of `m` alone. -/
abbrev KeepsIn (pid : Option ℤ) (m : Mem) (r : Except Fault Mem) : Prop :=
  Outcome (Keeps pid m) NotUnderflow r

/-- The operations compose. -/
theorem KeepsIn.bind {x : Except Fault Mem} {g : Mem → Except Fault Mem} (h : KeepsIn pid m x)
    (hg : ∀ m', KeepsIn pid m' (g m')) : KeepsIn pid m (x >>= g) :=
  Outcome.bind h fun m' hm' => (hg m').mono fun _ h' => hm'.trans h'

/-- An operation that starts by changing frames or the log. -/
theorem KeepsIn.of_frames {r : Except Fault Mem} (h : KeepsIn pid m' r) (hb : m'.brk = m.brk)
    (hl : m'.currentPCBs = m.currentPCBs) (hc : m'.currProcess = m.currProcess)
    (hh : m'.heap = m.heap) : KeepsIn pid m r :=
  h.mono fun _ h' => Keeps.trans ⟨hb, hl, hc, fun hn => by rw [hh, hn],
    fun hx => ⟨_, by rw [hh, hx], CoreEq.refl _⟩⟩ h'

/-! ### Accesses -/

theorem pcb_outcome (m : Mem) (p : Ptr) :
    Outcome (fun x => m.heap p = some x) NotUnderflow (m.pcb p) := by
  unfold pcb
  cases m.heap p with
  | none => exact fun h => nomatch h
  | some x => rfl

theorem frameAt_outcome (i : ℤ) : Outcome (fun _ => True) NotUnderflow (frameAt i) := by
  unfold frameAt
  split_ifs
  · trivial
  · exact fun h => nomatch h

theorem tableAt_outcome (m : Mem) (f : Fin 32) :
    Outcome (fun _ => True) NotUnderflow (m.tableAt f) := by
  unfold tableAt
  cases (m.RAM f).pte with
  | none => exact fun h => nomatch h
  | some pt => trivial

theorem entryAt_outcome (pt : List PTE) (v : ℤ) :
    Outcome (fun _ => True) NotUnderflow (entryAt pt v) := by
  unfold entryAt
  split_ifs
  · trivial
  · exact fun h => nomatch h

theorem setPcb_keeps {g : PCB → PCB} (h : ∀ x, m.heap p = some x → CoreEq pid x (g x)) :
    KeepsIn pid m (m.setPcb p g) := by
  refine (pcb_outcome m p).bind fun x hx => ⟨rfl, rfl, rfl, fun {q} hn => ?_, fun {q y} hy => ?_⟩
  · have hq : q ≠ p := by
      rintro rfl
      exact nomatch hn.symm.trans hx
    exact (Function.update_of_ne hq ..).trans hn
  · by_cases hq : q = p
    · subst hq
      obtain rfl := Option.some.inj (hy.symm.trans hx)
      exact ⟨g y, Function.update_self .., h y hy⟩
    · exact ⟨y, (Function.update_of_ne hq ..).trans hy, CoreEq.refl y⟩

theorem setPcbIf_keeps {b : Bool} {g : PCB → PCB}
    (h : ∀ x, b = true → m.heap p = some x → CoreEq pid x (g x)) :
    KeepsIn pid m (m.setPcbIf b p g) := by
  cases b with
  | false => exact Keeps.refl m
  | true => exact setPcb_keeps fun x => h x rfl

theorem writePte_keeps (m : Mem) (table v : ℤ) (g : PTE → PTE) :
    KeepsIn pid m (m.writePte table v g) :=
  (frameAt_outcome table).bind fun f _ => (tableAt_outcome m f).bind fun pt _ =>
    (entryAt_outcome pt v).bind fun _ _ => ⟨rfl, rfl, rfl, id, fun h => ⟨_, h, CoreEq.refl _⟩⟩

theorem setFrame_keeps (m : Mem) (f : Fin 32) (g : Frame → Frame) : Keeps pid m (m.setFrame f g) :=
  ⟨rfl, rfl, rfl, id, fun h => ⟨_, h, CoreEq.refl _⟩⟩

theorem logIf_keeps (m : Mem) (b : Bool) (l : MemLine) : Keeps pid m (m.logIf b l) := by
  cases b <;> exact ⟨rfl, rfl, rfl, id, fun h => ⟨_, h, CoreEq.refl _⟩⟩

/-- The process that `get_process` finds has the id it was asked for. -/
def Found (m : Mem) (id : ℤ) (r : Option Ptr) : Prop :=
  ∀ p, r = some p → ∃ x, m.heap p = some x ∧ x.id = id

theorem idOf_outcome (m : Mem) (p : Ptr) :
    Outcome (fun i => ∃ x, m.heap p = some x ∧ x.id = i) NotUnderflow (m.idOf p) :=
  (pcb_outcome m p).bind fun x hx => ⟨x, hx, rfl⟩

theorem findById_outcome (m : Mem) (id : ℤ) :
    ∀ l, Outcome (Found m id) NotUnderflow (m.findById id l)
  | [] => fun _ h => nomatch h
  | p :: l => by
    refine (idOf_outcome m p).bind fun i hi => Outcome.ite (fun he => ?_) fun _ => ?_
    · rintro q hq
      obtain rfl := Option.some.inj hq
      exact he ▸ hi
    · exact findById_outcome m id l

theorem getProcess_outcome (m : Mem) (id : ℤ) :
    Outcome (Found m id) NotUnderflow (m.getProcess id) := by
  unfold getProcess
  cases m.currProcess with
  | none => exact findById_outcome m id _
  | some p =>
    refine (idOf_outcome m p).bind fun i hi => Outcome.ite (fun he => ?_) fun _ => ?_
    · rintro q hq
      obtain rfl := Option.some.inj hq
      exact he ▸ hi
    · exact findById_outcome m id _

/-! ### The functions -/

theorem check_keeps (m : Mem) (p : Ptr) (page : ℤ) (c : Char) :
    Outcome (fun r => Keeps none m r.2) NotUnderflow (m.check p page c) := by
  refine (pcb_outcome m p).bind fun x _ => (frameAt_outcome _).bind fun f _ =>
    Outcome.ite (fun _ => Keeps.refl m) fun _ => (tableAt_outcome m f).bind fun pt _ =>
    (entryAt_outcome pt page).bind fun e _ => Outcome.ite (fun _ => ?_) fun _ => Keeps.refl m
  exact Outcome.bind (writePte_keeps m _ _ _) fun m' hm' => (frameAt_outcome _).bind fun j _ =>
    Keeps.trans hm' (setFrame_keeps m' j fun fr => { fr with R := true, M := fr.M || c = 'w' })

theorem putPageInFrame_keeps (m : Mem) (id page : ℤ) (i : Fin 32) (c : Char) :
    KeepsIn pid m (m.putPageInFrame id page i c) := by
  unfold putPageInFrame
  refine KeepsIn.of_frames (show KeepsIn pid (m.logLine (.allocated i)) _ from ?_) rfl rfl rfl rfl
  refine Outcome.bind (getProcess_outcome _ id) fun r _ => ?_
  cases r with
  | none => exact Keeps.refl _
  | some owner =>
    refine (pcb_outcome _ owner).bind fun o _ => Outcome.ite (fun _ => Keeps.refl _) fun _ => ?_
    exact (writePte_keeps _ _ _ _).of_frames rfl rfl rfl rfl

theorem definePageTable_keeps (m : Mem) (id : ℤ) (i : Fin 32) :
    KeepsIn pid m (m.definePageTable id i) := by
  unfold definePageTable
  refine KeepsIn.of_frames (show KeepsIn pid (m.logLine (.allocated i)) _ from ?_) rfl rfl rfl rfl
  refine Outcome.bind (getProcess_outcome _ id) fun r _ => ?_
  cases r with
  | none => exact fun h => nomatch h
  | some owner =>
    refine (pcb_outcome _ owner).bind fun o _ => Outcome.ite (fun _ h => nomatch h) fun _ => ?_
    refine KeepsIn.of_frames (m := m.logLine _) (setPcb_keeps fun x _ => ?_) rfl rfl rfl rfl
    exact ⟨rfl, Or.inl rfl⟩

theorem invalidate_keeps (m : Mem) (i : Fin 32) : KeepsIn pid m (m.invalidate i) := by
  refine Outcome.bind (getProcess_outcome m _) fun r _ => ?_
  cases r with
  | none => exact Keeps.refl m
  | some owner =>
    exact (pcb_outcome m owner).bind fun o _ => Outcome.ite (fun _ => writePte_keeps m _ _ _)
      fun _ => Keeps.refl m

/-- The exception: a demand fault blocks its process. -/
theorem block_coreEq {type : FaultType} {t : ℤ} (hb : blocks type page = true) (hid : x.id = id) :
    CoreEq (if type = .demand then some id else none) x
      { x with state := .B, unblockAt := t } := by
  have ht : type = .demand := by
    unfold blocks at hb
    simp only [Bool.and_eq_true, decide_eq_true_eq] at hb
    exact hb.1
  exact ⟨rfl, Or.inr ⟨rfl, by rw [if_pos ht, hid]⟩⟩

theorem replace_keeps {type : FaultType} {t : ℤ} {owner : Ptr}
    (ho : ∃ x, m.heap owner = some x ∧ x.id = id) (f : Fin 32) :
    KeepsIn (if type = .demand then some id else none) m
      (m.replace clk t id owner f page type c) := by
  refine (pcb_outcome m owner).bind fun o hoo => ?_
  have hlog : Keeps (if type = .demand then some id else none) m _ := logIf_keeps m
    (decide (type = .firstPage)) (.loaded (clk .swapLog) (o.base + page) o.id f)
  refine Outcome.mono (Q := Keeps (if type = .demand then some id else none)
    (m.logIf (decide (type = .firstPage)) (.loaded (clk .swapLog) (o.base + page) o.id f))) ?_
    fun _ h => hlog.trans h
  refine KeepsIn.bind (setPcbIf_keeps fun x hb hx => ?_) fun m₁ => ?_
  · obtain ⟨x', hx', hid⟩ := ho
    have hxx : m.heap owner = some x := by
      cases hd : decide (type = FaultType.firstPage) <;> rw [hd] at hx <;> exact hx
    obtain rfl := Option.some.inj (hxx.symm.trans hx')
    exact block_coreEq hb hid
  · refine KeepsIn.bind (writePte_keeps _ _ _ _) fun m₂ => ?_
    exact KeepsIn.of_frames (setPcbIf_keeps fun _ _ _ => ⟨rfl, Or.inl rfl⟩) rfl rfl rfl rfl

theorem swap_keeps {type : FaultType} (f : Fin 32) :
    KeepsIn (if type = .demand then some id else none) m (m.swap clk id f page type c) := by
  refine KeepsIn.bind (invalidate_keeps m f) fun m₁ => Outcome.ite
    (fun _ => definePageTable_keeps m₁ id f) fun _ => ?_
  refine Outcome.mono (Q := Keeps (if type = .demand then some id else none)
    (m₁.logIf (decide ((m₁.RAM f).M = true ∧ type ≠ .firstPage)) (.swappedOut f))) ?_
    fun _ h => (logIf_keeps _ _ _).trans h
  refine Outcome.bind (getProcess_outcome _ id) fun r hr => ?_
  cases r with
  | none => exact Keeps.refl _
  | some owner => exact replace_keeps (hr owner rfl) f

theorem fillFree_keeps {type : FaultType} {owner : Option Ptr} (i : Fin 32) :
    KeepsIn pid m (m.fillFree clk owner id page type i c) := by
  have hdelay : ∀ m : Mem, KeepsIn pid m (m.delayOwner clk owner page i) := by
    intro m
    cases owner with
    | none => exact Keeps.refl m
    | some p => exact setPcbIf_keeps fun _ _ _ => ⟨rfl, Or.inl rfl⟩
  cases type with
  | pageTable => exact definePageTable_keeps m id i
  | demand =>
    have hset : Keeps pid m _ := setFrame_keeps m i fun fr => { fr with reserved := true }
    refine Outcome.mono (KeepsIn.bind (hdelay _) fun m₁ => putPageInFrame_keeps m₁ id page i c)
      fun _ h => hset.trans h
  | firstPage => exact KeepsIn.bind (hdelay m) fun m₁ => putPageInFrame_keeps m₁ id page i c

theorem takeFree_keeps {type : FaultType} {owner : Option Ptr} (i : Fin 32) :
    KeepsIn pid m (m.takeFree clk owner id page type i c) := by
  refine KeepsIn.bind (fillFree_keeps i) fun m₁ => ?_
  cases owner with
  | none => exact Keeps.refl m₁
  | some p =>
    refine KeepsIn.bind (setPcbIf_keeps fun _ _ _ => ⟨rfl, Or.inl rfl⟩) fun m₂ => ?_
    exact (pcb_outcome m₂ p).bind fun o _ => logIf_keeps m₂ _ _

/-- **`fault_handler` leaves the scheduling side alone**, but for the state of a process
whose demand fault blocks it. -/
theorem faultHandler_keeps (clk : Clk) (m : Mem) (id page : ℤ) (type : FaultType)
    (raw : List Char) (c : Char) :
    KeepsIn (if type = .demand then some id else none) m
      (m.faultHandler clk id page type raw c) := by
  refine Outcome.bind (getProcess_outcome m id) fun owner ho => ?_
  refine KeepsIn.bind ?_ fun m₁ => ?_
  · cases owner with
    | none => exact Keeps.refl m
    | some p =>
      refine setPcbIf_keeps fun x hb hx => ?_
      obtain ⟨y, hy, hid⟩ := ho p rfl
      obtain rfl := Option.some.inj (hx.symm.trans hy)
      exact ⟨rfl, (block_coreEq (t := 0) hb hid).2⟩
  · refine Outcome.mono (Q := Keeps (if type = .demand then some id else none)
      (m₁.logIf (decide (type = .demand)) (.pageFault raw id))) ?_
      fun _ h => (logIf_keeps _ _ _).trans h
    dsimp only
    cases scan (m₁.logIf (decide (type = .demand)) (.pageFault raw id)).RAM with
    | free i => exact takeFree_keeps i
    | victim i => exact swap_keeps i
    | nothing => exact Keeps.refl _

theorem initializePCB_keeps (clk : Clk) (m : Mem) (p : Ptr) :
    KeepsIn none m (m.initializePCB clk p) :=
  (pcb_outcome m p).bind fun x _ => Outcome.ite
    (fun _ => KeepsIn.bind (faultHandler_keeps clk m x.id 0 .pageTable [] 'r') fun m₁ =>
      faultHandler_keeps clk m₁ x.id 0 .firstPage [] 'r')
    fun _ => Keeps.refl m

theorem freeReserved_keeps (m : Mem) (i : ℤ) : KeepsIn pid m (m.freeReserved i) :=
  (frameAt_outcome i).bind fun f _ => setFrame_keeps m f _

theorem clearFrame_keeps (m : Mem) (i : Fin 32) : KeepsIn pid m (m.clearFrame i) := by
  refine Outcome.ite (fun _ => ?_) fun _ => Keeps.refl m
  have hset : Keeps pid m _ := setFrame_keeps m i fun fr => { fr with R := false }
  generalize m.setFrame i (fun fr => { fr with R := false }) = m₁ at *
  dsimp only
  cases (m₁.RAM i).pte with
  | none => exact hset
  | some pt =>
    refine Outcome.mono (Q := Keeps pid m₁) ?_ fun _ h => hset.trans h
    refine Outcome.bind (getProcess_outcome m₁ _) fun r _ => ?_
    cases r with
    | none => exact fun h => nomatch h
    | some owner =>
      exact (pcb_outcome m₁ owner).bind fun o _ => Outcome.ite
        (fun _ => setFrame_keeps m₁ i _) fun _ h => nomatch h

theorem clearRecent_keeps (m : Mem) : KeepsIn pid m m.clearRecent :=
  foldlM_outcome (fun m₁ i h => (clearFrame_keeps m₁ i).mono fun _ h' => h.trans h') _ m
    (Keeps.refl m)

end Mem

end CpuScheduler
