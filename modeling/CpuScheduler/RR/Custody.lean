import CpuScheduler.Mmu.Frame
import CpuScheduler.Mmu.Runs
import CpuScheduler.RR.Basic
import Mathlib.Data.Multiset.AddSub

/-!
# Who holds a process

A PCB pointer is moved around by hand between one variable and three queues. What
makes the moves right is that at every moment each live process is held exactly once,
by the variable, by one of the two queues, or by the function that is just moving it.
`CpuScheduler.RRState.Custody` is this invariant, with the pointers in transit and the
pointer counted as running as parameters; it also asks that the state letter of a
process is that of its holder.

The lemmas are one for each kind of move. The functions of the scheduler are chains
of such moves with writes in between, and the writes of the memory functions are
covered by `CpuScheduler.RRState.Custody.keeps`.
-/

namespace CpuScheduler

namespace RRState

open Fallible Mem

variable {s s' : RRState} {l c : List Ptr} {p q : Ptr} {x y : PCB} {clk : Clk}

/-- The process `p` is in the state `st`. -/
def InState (m : Mem) (st : ProcState) (p : Ptr) : Prop := ∃ x, m.heap p = some x ∧ x.state = st

theorem InState.eq {m : Mem} {st : ProcState} (h : InState m st p) (hx : m.heap p = some x) :
    x.state = st := by
  obtain ⟨y, hy, hst⟩ := h
  exact Option.some.inj (hx.symm.trans hy) ▸ hst

/-- **Custody of the processes.** The pointers in `l` are in transit, those in `c`
count as running. -/
structure Custody (s : RRState) (l c : List Ptr) : Prop where
  /-- Every live process is held exactly once. -/
  places : (s.currentPCBs : Multiset Ptr) = ↑l + ↑c + ↑s.readyQueue + ↑s.blockQueue
  wf : s.toMem.Wf
  fresh : s.toMem.Fresh
  running : ∀ p ∈ c, InState s.toMem .R p
  ready : ∀ p ∈ s.readyQueue, InState s.toMem .W p
  blocked : ∀ p ∈ s.blockQueue, InState s.toMem .B p
  /-- What was received is live or finished, and was received once. -/
  history : (s.received : Multiset Ptr) = ↑s.finished + ↑s.currentPCBs
  once : s.received.Nodup
  old : ∀ p ∈ s.received, p < s.brk

/-! ### Reading the invariant -/

theorem Custody.mem_iff (h : s.Custody l c) :
    p ∈ s.currentPCBs ↔ p ∈ l ∨ p ∈ c ∨ p ∈ s.readyQueue ∨ p ∈ s.blockQueue := by
  rw [← Multiset.mem_coe, h.places]
  simp only [Multiset.mem_add, Multiset.mem_coe, or_assoc]

theorem Custody.live (h : s.Custody l c) (hp : p ∈ s.currentPCBs) :
    ∃ x, s.toMem.Live p x := by
  obtain ⟨x, hx⟩ := h.wf.alloc hp
  exact ⟨x, hp, hx⟩

/-- A process in transit is nowhere else. -/
theorem Custody.not_mem (h : s.Custody (p :: l) c) :
    p ∉ l ∧ p ∉ c ∧ p ∉ s.readyQueue ∧ p ∉ s.blockQueue := by
  have hn : (s.currentPCBs : Multiset Ptr).Nodup := Multiset.coe_nodup.mpr h.wf.nodup
  rw [h.places, ← Multiset.cons_coe, Multiset.cons_add, Multiset.cons_add, Multiset.cons_add,
    Multiset.nodup_cons] at hn
  simpa only [Multiset.mem_add, Multiset.mem_coe, not_or, and_assoc] using hn.1

/-! ### Changes of other fields -/

/-- Only what custody reads matters. -/
theorem Custody.of_eq (h : s.Custody l c) (hm : s'.toMem = s.toMem)
    (hr : s'.readyQueue = s.readyQueue) (hb : s'.blockQueue = s.blockQueue)
    (hrec : s'.received = s.received) (hf : s'.finished = s.finished) : s'.Custody l c where
  places := by rw [hm, hr, hb, h.places]
  wf := hm ▸ h.wf
  fresh := hm ▸ h.fresh
  running := hm ▸ h.running
  ready := by rw [hm, hr]; exact h.ready
  blocked := by rw [hm, hb]; exact h.blocked
  history := by rw [hm, hrec, hf, h.history]
  once := hrec ▸ h.once
  old := by rw [hrec, hm]; exact h.old

/-- Choosing the process that is running. -/
theorem Custody.choose (h : s.Custody l c) (cur : Option Ptr)
    (hc : ∀ p, cur = some p → p ∈ s.currentPCBs) :
    ({ s with currProcess := cur } : RRState).Custody l c where
  places := h.places
  wf := ⟨h.wf.nodup, h.wf.alloc, fun hp => hc _ hp, h.wf.ids⟩
  fresh := h.fresh
  running := h.running
  ready := h.ready
  blocked := h.blocked
  history := h.history
  once := h.once
  old := h.old

/-! ### Moves -/

/-- The running process is taken into transit. -/
theorem Custody.takeRunning (h : s.Custody l (p :: c)) : s.Custody (p :: l) c where
  places := by
    rw [h.places, ← Multiset.cons_coe, ← Multiset.cons_coe]
    simp only [Multiset.cons_add, Multiset.add_cons]
  wf := h.wf
  fresh := h.fresh
  running q hq := h.running q (List.mem_cons_of_mem p hq)
  ready := h.ready
  blocked := h.blocked
  history := h.history
  once := h.once
  old := h.old

/-- A process in transit becomes the running one. -/
theorem Custody.putRunning (h : s.Custody (p :: l) c) (hp : InState s.toMem .R p) :
    s.Custody l (p :: c) where
  places := by
    rw [h.places, ← Multiset.cons_coe, ← Multiset.cons_coe]
    simp only [Multiset.cons_add, Multiset.add_cons]
  wf := h.wf
  fresh := h.fresh
  running q hq := by
    rcases List.mem_cons.mp hq with rfl | hq
    · exact hp
    · exact h.running q hq
  ready := h.ready
  blocked := h.blocked
  history := h.history
  once := h.once
  old := h.old

/-- A process is taken out of the ready queue. -/
theorem Custody.takeReady {a b : List Ptr} (h : s.Custody l c)
    (hq : s.readyQueue = a ++ p :: b) :
    ({ s with readyQueue := a ++ b } : RRState).Custody (p :: l) c where
  places := by
    have hsplit : (↑(a ++ p :: b) : Multiset Ptr) = p ::ₘ ↑(a ++ b) := by
      rw [Multiset.cons_coe]
      exact Multiset.coe_eq_coe.mpr List.perm_middle
    rw [h.places, hq, hsplit, ← Multiset.cons_coe]
    simp only [Multiset.cons_add, Multiset.add_cons]
  wf := h.wf
  fresh := h.fresh
  running := h.running
  ready q hq' := h.ready q (by
    rw [hq]
    simp only [List.mem_append, List.mem_cons] at hq' ⊢
    tauto)
  blocked := h.blocked
  history := h.history
  once := h.once
  old := h.old

/-- A process is taken out of the block queue. -/
theorem Custody.takeBlocked {a b : List Ptr} (h : s.Custody l c)
    (hq : s.blockQueue = a ++ p :: b) :
    ({ s with blockQueue := a ++ b } : RRState).Custody (p :: l) c where
  places := by
    have hsplit : (↑(a ++ p :: b) : Multiset Ptr) = p ::ₘ ↑(a ++ b) := by
      rw [Multiset.cons_coe]
      exact Multiset.coe_eq_coe.mpr List.perm_middle
    rw [h.places, hq, hsplit, ← Multiset.cons_coe]
    simp only [Multiset.cons_add, Multiset.add_cons]
  wf := h.wf
  fresh := h.fresh
  running := h.running
  ready := h.ready
  blocked q hq' := h.blocked q (by
    rw [hq]
    simp only [List.mem_append, List.mem_cons] at hq' ⊢
    tauto)
  history := h.history
  once := h.once
  old := h.old

/-- A process in transit is put into the ready queue. -/
theorem Custody.putReady (h : s.Custody (p :: l) c) (hp : InState s.toMem .W p) :
    ({ s with readyQueue := Queue.enqueue s.readyQueue p } : RRState).Custody l c where
  places := by
    have henq : (↑(Queue.enqueue s.readyQueue p) : Multiset Ptr) = p ::ₘ ↑s.readyQueue := by
      rw [Multiset.cons_coe]
      exact Multiset.coe_eq_coe.mpr (Queue.perm_enqueue _ _)
    rw [h.places, henq, ← Multiset.cons_coe]
    simp only [Multiset.cons_add, Multiset.add_cons]
  wf := h.wf
  fresh := h.fresh
  running := h.running
  ready q hq := by
    rcases Queue.mem_enqueue.mp hq with hq | rfl
    · exact h.ready q hq
    · exact hp
  blocked := h.blocked
  history := h.history
  once := h.once
  old := h.old

/-- A process in transit is put into the block queue. -/
theorem Custody.putBlocked (h : s.Custody (p :: l) c) (hp : InState s.toMem .B p) :
    ({ s with blockQueue := Queue.enqueue s.blockQueue p } : RRState).Custody l c where
  places := by
    have henq : (↑(Queue.enqueue s.blockQueue p) : Multiset Ptr) = p ::ₘ ↑s.blockQueue := by
      rw [Multiset.cons_coe]
      exact Multiset.coe_eq_coe.mpr (Queue.perm_enqueue _ _)
    rw [h.places, henq, ← Multiset.cons_coe]
    simp only [Multiset.cons_add, Multiset.add_cons]
  wf := h.wf
  fresh := h.fresh
  running := h.running
  ready := h.ready
  blocked q hq := by
    rcases Queue.mem_enqueue.mp hq with hq | rfl
    · exact h.blocked q hq
    · exact hp
  history := h.history
  once := h.once
  old := h.old

/-! ### Writes -/

/-- A write to the PCB of a process in transit. -/
theorem Custody.withPcb (h : s.Custody (p :: l) c) (hx : s.heap p = some x) (hid : y.id = x.id) :
    ({ s with toMem := s.toMem.withPcb p y } : RRState).Custody (p :: l) c := by
  obtain ⟨-, hpc, hpr, hpb⟩ := h.not_mem
  have hother : ∀ {st q}, q ≠ p → InState s.toMem st q → InState (s.toMem.withPcb p y) st q := by
    rintro st q hq ⟨z, hz, hst⟩
    exact ⟨z, (withPcb_heap_of_ne hq y).trans hz, hst⟩
  have hlive : ∀ {q z}, (s.toMem.withPcb p y).Live q z →
      ∃ z', s.toMem.Live q z' ∧ z'.id = z.id := by
    rintro q z ⟨hq, hz⟩
    by_cases hqp : q = p
    · subst hqp
      rw [withPcb_heap_self] at hz
      exact ⟨x, ⟨hq, hx⟩, by rw [← Option.some.inj hz, hid]⟩
    · exact ⟨z, ⟨hq, (withPcb_heap_of_ne hqp y).symm.trans hz⟩, rfl⟩
  refine ⟨h.places, ⟨h.wf.nodup, fun {q} hq => ?_, h.wf.cur, fun hy hz he => ?_⟩,
    h.fresh.withPcb hx y, fun q hq => ?_, fun q hq => ?_, fun q hq => ?_, h.history, h.once, h.old⟩
  · by_cases hqp : q = p
    · exact ⟨y, hqp ▸ withPcb_heap_self ..⟩
    · obtain ⟨z, hz⟩ := h.wf.alloc hq
      exact ⟨z, (withPcb_heap_of_ne hqp y).trans hz⟩
  · obtain ⟨y', hy', hidy⟩ := hlive hy
    obtain ⟨z', hz', hidz⟩ := hlive hz
    exact h.wf.ids hy' hz' (by rw [hidy, hidz, he])
  · exact hother (fun hqp => hpc (hqp ▸ hq)) (h.running q hq)
  · exact hother (fun hqp => hpr (hqp ▸ hq)) (h.ready q hq)
  · exact hother (fun hqp => hpb (hqp ▸ hq)) (h.blocked q hq)

theorem update_eq (hx : s.heap p = some x) (g : PCB → PCB) :
    s.update p g = .ok { s with toMem := s.toMem.withPcb p (g x) } := by
  rw [update, onMem, setPcb_withPcb hx, ok_bind]

theorem logData_eq (hx : s.heap p = some x) (t : ℤ) :
    s.logData t p = .ok { s with schedulerLog := s.schedulerLog ++ [lineOf x t] } := by
  rw [logData, pcb_eq hx, ok_bind]

/-- **The memory functions do not concern custody**, when the process that a demand
fault may block is in transit or already blocked. -/
theorem Custody.keeps {m : Mem} {pid : Option ℤ} (h : s.Custody l c)
    (hk : Keeps pid s.toMem m)
    (hpid : ∀ i, pid = some i → ∃ q x, s.heap q = some x ∧ x.id = i ∧
      (q ∈ l ∨ q ∈ s.blockQueue)) :
    ({ s with toMem := m } : RRState).Custody l c := by
  have hback : ∀ {q z}, m.Live q z → ∃ z', s.toMem.Live q z' ∧ CoreEq pid z' z := by
    rintro q z ⟨hq, hz⟩
    have hq' : q ∈ s.currentPCBs := hk.pcbs ▸ hq
    obtain ⟨z', hz'⟩ := h.wf.alloc hq'
    obtain ⟨y, hy, hc⟩ := hk.pcb hz'
    obtain rfl := Option.some.inj (hz.symm.trans hy)
    exact ⟨z', ⟨hq', hz'⟩, hc⟩
  -- a process held by somebody else keeps its state
  have hkeep : ∀ {st q}, q ∈ s.currentPCBs → q ∉ l → q ∉ s.blockQueue → InState s.toMem st q →
      InState m st q := by
    rintro st q hq hql hqb ⟨z, hz, hst⟩
    obtain ⟨y, hy, -, hs⟩ := hk.pcb hz
    refine ⟨y, hy, ?_⟩
    rcases hs with hs | ⟨-, hp⟩
    · rw [hs, hst]
    · obtain ⟨r, w, hw, hid, hr⟩ := hpid _ hp
      have hrl : r ∈ s.currentPCBs := by
        rw [h.mem_iff]
        tauto
      obtain rfl := h.wf.ids ⟨hrl, hw⟩ ⟨hq, hz⟩ hid
      rcases hr with hr | hr
      · exact absurd hr hql
      · exact absurd hr hqb
  have hplaces : (s.currentPCBs : Multiset Ptr).Nodup := Multiset.coe_nodup.mpr h.wf.nodup
  rw [h.places, Multiset.nodup_add, Multiset.nodup_add, Multiset.nodup_add] at hplaces
  obtain ⟨⟨⟨-, -, hlc⟩, -, hlcr⟩, -, hall⟩ := hplaces
  refine ⟨by rw [← h.places]; exact congrArg _ hk.pcbs,
    ⟨hk.pcbs ▸ h.wf.nodup, fun {q} hq => ?_, fun hq => ?_, fun hy hz he => ?_⟩, fun q hq => ?_,
    fun q hq => ?_, fun q hq => ?_, fun q hq => ?_, ?_, h.once, fun q hq => ?_⟩
  · obtain ⟨z, hz⟩ := h.wf.alloc (hk.pcbs ▸ hq)
    obtain ⟨y, hy, -⟩ := hk.pcb hz
    exact ⟨y, hy⟩
  · rw [hk.pcbs]
    exact h.wf.cur (hk.cur ▸ hq)
  · obtain ⟨y', hy', hcy⟩ := hback hy
    obtain ⟨z', hz', hcz⟩ := hback hz
    exact h.wf.ids hy' hz' (by rw [← core_id hcy.1, ← core_id hcz.1, he])
  · exact hk.none (h.fresh q (hk.brk ▸ hq))
  · refine hkeep (h.mem_iff.mpr (Or.inr (Or.inl hq))) (fun hql => ?_) (fun hqb => ?_)
      (h.running q hq)
    · exact Multiset.disjoint_left.mp hlc hql hq
    · exact Multiset.disjoint_left.mp hall
        (Multiset.mem_add.mpr (Or.inl (Multiset.mem_add.mpr (Or.inr hq)))) hqb
  · refine hkeep (h.mem_iff.mpr (Or.inr (Or.inr (Or.inl hq)))) (fun hql => ?_) (fun hqb => ?_)
      (h.ready q hq)
    · exact Multiset.disjoint_left.mp hlcr (Multiset.mem_add.mpr (Or.inl hql)) hq
    · exact Multiset.disjoint_left.mp hall (Multiset.mem_add.mpr (Or.inr hq)) hqb
  · obtain ⟨z, hz, hst⟩ := h.blocked q hq
    obtain ⟨y, hy, -, hs⟩ := hk.pcb hz
    refine ⟨y, hy, ?_⟩
    rcases hs with hs | ⟨hB, -⟩
    · rw [hs, hst]
    · exact hB
  · rw [h.history]
    exact congrArg (fun z : List Ptr => (↑s.finished + ↑z : Multiset Ptr)) hk.pcbs.symm
  · rw [hk.brk]
    exact h.old q hq

end RRState

end CpuScheduler
