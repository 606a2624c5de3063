import CpuScheduler.Mmu.Frame
import CpuScheduler.Mmu.Runs

/-!
# The memory side and the scheduling side

The scheduler works on two halves of a state that hardly overlap. The frames, the page
tables and the memory fields of a PCB belong to the memory functions; the core of a
PCB (`CpuScheduler.PCB.core`) belongs to the scheduler. Two notions keep the halves
apart.

* `CpuScheduler.Mem.SameCore` relates two memories that the scheduling side cannot tell
  apart.
* `CpuScheduler.Mem.Kept` says that a predicate of the memory is kept by everything
  the scheduler does to the memory. It is proved once for each predicate, and the
  functions of the scheduler are gone through once for all predicates.
-/

namespace CpuScheduler

/-- The PCB `y` is `x` after a write of the scheduler to its own fields. It may make a
process anything but blocked, and a blocked process anything only if it waits for no
frame. -/
structure PCB.Own (x y : PCB) : Prop where
  key : y.key = x.key
  pendingPage : y.pendingPage = x.pendingPage
  pendingFrame : y.pendingFrame = x.pendingFrame
  unblockAt : y.unblockAt = x.unblockAt
  pid : y.pid = x.pid
  state : y.state = .B → x.state = .B
  settled : x.state = .B → y.state = .B ∨ x.pendingPage = -1 ∨ x.pendingFrame = -1
  base : y.base = x.base

/-- A process whose page table can have an entry. -/
def Paged (d : ProcessData) : Prop := 1 ≤ d.limit

instance : DecidablePred Paged := fun d => inferInstanceAs (Decidable (1 ≤ d.limit))

namespace Mem

open Fallible

variable {m m' : Mem} {p q : Ptr} {x y : PCB} {clk : Clk} {pid : Option ℤ}

/-! ### What the scheduling side sees -/

/-- The two memories are the same to the scheduling side. -/
structure SameCore (m m' : Mem) : Prop where
  brk : m'.brk = m.brk
  pcbs : m'.currentPCBs = m.currentPCBs
  cur : m'.currProcess = m.currProcess
  core : ∀ p, (m'.heap p).map PCB.core = (m.heap p).map PCB.core

theorem SameCore.refl (m : Mem) : SameCore m m := ⟨rfl, rfl, rfl, fun _ => rfl⟩

theorem SameCore.trans {m₁ m₂ m₃ : Mem} (h : SameCore m₁ m₂) (h' : SameCore m₂ m₃) :
    SameCore m₁ m₃ :=
  ⟨h'.brk.trans h.brk, h'.pcbs.trans h.pcbs, h'.cur.trans h.cur,
    fun p => (h'.core p).trans (h.core p)⟩

theorem SameCore.symm (h : SameCore m m') : SameCore m' m :=
  ⟨h.brk.symm, h.pcbs.symm, h.cur.symm, fun p => (h.core p).symm⟩

/-- A PCB of the one memory has a counterpart in the other. -/
theorem SameCore.pcb (h : SameCore m m') (hy : m'.heap p = some y) :
    ∃ x, m.heap p = some x ∧ y.core = x.core := by
  have hc := h.core p
  rw [hy, Option.map_some] at hc
  obtain ⟨x, hx, he⟩ := Option.map_eq_some_iff.mp hc.symm
  exact ⟨x, hx, he.symm⟩

theorem Keeps.sameCore (h : Keeps pid m m') : SameCore m m' := by
  refine ⟨h.brk, h.pcbs, h.cur, fun p => ?_⟩
  cases hp : m.heap p with
  | none => rw [h.none hp]
  | some x =>
    obtain ⟨y, hy, hc, -⟩ := h.pcb hp
    rw [hy, Option.map_some, Option.map_some, hc]

/-- The same write on both sides. -/
theorem SameCore.withPcb (h : SameCore m m') (p : Ptr) (hc : y.core = x.core) :
    SameCore (m.withPcb p x) (m'.withPcb p y) := by
  refine ⟨h.brk, h.pcbs, h.cur, fun q => ?_⟩
  by_cases hq : q = p
  · rw [hq, withPcb_heap_self, withPcb_heap_self, Option.map_some, Option.map_some, hc]
  · rw [withPcb_heap_of_ne hq, withPcb_heap_of_ne hq]
    exact h.core q

/-- A write the scheduling side does not see. -/
theorem sameCore_withPcb (hx : m.heap p = some x) (hc : y.core = x.core) :
    SameCore m (m.withPcb p y) := by
  have h := (SameCore.refl m).withPcb p hc
  rwa [withPcb_self hx] at h

theorem SameCore.choose (h : SameCore m m') (cur : Option Ptr) :
    SameCore { m with currProcess := cur } { m' with currProcess := cur } :=
  ⟨h.brk, h.pcbs, rfl, h.core⟩

/-- The fields of the core. -/
theorem core_eq (h : y.core = x.core) :
    y.id = x.id ∧ y.arrival = x.arrival ∧ y.runtime = x.runtime ∧
      y.remainingTime = x.remainingTime ∧ y.waitingTime = x.waitingTime ∧
      y.startTime = x.startTime ∧ y.lastStopped = x.lastStopped ∧ y.pid = x.pid ∧
      y.limit = x.limit := by
  have hf : ∀ {β : Type} (g : PCB → β), g y.core = g x.core := fun g => congrArg g h
  exact ⟨hf PCB.id, hf PCB.arrival, hf PCB.runtime, hf PCB.remainingTime, hf PCB.waitingTime,
    hf PCB.startTime, hf PCB.lastStopped, hf PCB.pid, hf PCB.limit⟩

/-! ### Predicates that the scheduler keeps -/

/-- When there is room for what a fault of a process asks for: for its page, in these
frames. -/
abbrev Room := FaultType → Ptr → ℤ → (Fin 32 → Frame) → Prop

/-- **The predicate `K` is kept by everything the scheduler does to the memory**: by its
own writes, and by its calls of the memory functions, when the processes it receives
are admissible (`adm`) and there is room for what it asks for (`room`). A call is
taken together with the writes without which it makes no sense: a demand fault for the
page of the request's address with the write that blocks its process, the release of a
reservation with the line that tells of it and the write that unblocks its process, the
first pages of a process with the write of its process id. -/
structure Kept (K : Mem → Prop) (room : Room) (adm : ProcessData → Prop) : Prop where
  write : ∀ {m p x y}, K m → m.Live p x → x.Own y → K (m.withPcb p y)
  choose : ∀ {m} {cur : Option Ptr}, K m → (∀ p, cur = some p → p ∈ m.currentPCBs) →
    K { m with currProcess := cur }
  access : ∀ {m m' p x v c r}, K m → m.Live p x → m.check p v c = .ok (r, m') → K m'
  block : ∀ {m m' p x y clk v raw c}, K m → m.Live p x → x.state ≠ .B →
    m.check p v c = .ok (.miss, m) → room .demand p v m.RAM → v = (parseHexaAddress raw).page →
    x.Own { y with state := x.state } →
    (m.withPcb p y).faultHandler clk x.id v .demand raw c = .ok m' → K m'
  unblock : ∀ {m m' p x t}, K m → m.Live p x → x.state = .B →
    (m.logLine (.loaded t (x.base + x.pendingPage) x.id x.pendingFrame)).freeReserved
      x.pendingFrame = .ok m' →
    K (m'.withPcb p { x with pendingPage := -1, pendingFrame := -1, state := .W })
  clear : ∀ {m m'}, K m → m.clearRecent = .ok m' → K m'
  launch : ∀ {m m' p x y clk i}, K m → m.Live p x → x.pid = -1 → i ≠ -1 →
    room .pageTable p 0 m.RAM → m.initializePCB clk p = .ok m' → m'.heap p = some y →
    K (m'.withPcb p { y with lState := .start, pid := i })
  create : ∀ {m d}, K m → m.Fresh → (∀ p x, m.Live p x → x.id ≠ d.id) → adm d → K (m.create d)
  finish : ∀ {m m' p x}, K m → m.Live p x → m.release p = .ok m' → K m'

/-- On the scheduling side, `m'` is `m` without the process `p`. -/
structure Released (m m' : Mem) (p : Ptr) : Prop where
  heap : m'.heap = Function.update m.heap p none
  brk : m'.brk = m.brk
  pcbs : m'.currentPCBs = m.currentPCBs.erase p
  cur : m'.currProcess = none

/-- What the release of a finished process does on the scheduling side. -/
theorem release_outcome (hw : m.Wf) (hx : m.Live p x) :
    Outcome (fun m' => Released m m' p) NotUnderflow (m.release p) := by
  have htake := Queue.dequeueById_self (hw.idOf_inj hx) hx.1 (idOf_eq hx.2)
  rw [release, pcb_eq hx.2, ok_bind, htake, ok_bind]
  refine Outcome.bind (Q := fun m₁ : Mem => m₁.heap = m.heap ∧ m₁.brk = m.brk ∧
    m₁.currentPCBs = m.currentPCBs.erase p) ?_ ?_
  · exact (frameAt_outcome x.frameIndex).bind fun f _ => ⟨rfl, rfl, rfl⟩
  · rintro m₁ ⟨hh, hb, hl⟩
    exact ⟨congrArg (fun h : Ptr → Option PCB => Function.update h p none) hh, hb, hl, rfl⟩

/-- A write to the process before its release is not seen any more. -/
theorem Released.of_withPcb (h : Released (m.withPcb p y) m' p) : Released m m' p :=
  ⟨h.heap.trans (Function.update_idem ..), h.brk, h.pcbs, h.cur⟩

theorem Released.heap_of_ne (h : Released m m' p) (hq : q ≠ p) : m'.heap q = m.heap q := by
  rw [h.heap, Function.update_of_ne hq]

/-- The trivial predicate is kept. -/
theorem kept_true : Kept (fun _ => True) (fun _ _ _ _ => True) (fun _ => True) :=
  ⟨fun _ _ _ => trivial, fun _ _ => trivial, fun _ _ _ => trivial, fun _ _ _ _ _ _ _ _ => trivial,
    fun _ _ _ _ => trivial, fun _ _ => trivial, fun _ _ _ _ _ _ _ => trivial,
    fun _ _ _ _ => trivial,
    fun _ _ _ => trivial⟩

end Mem

end CpuScheduler
