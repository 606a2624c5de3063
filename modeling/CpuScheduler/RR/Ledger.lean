import CpuScheduler.Mmu.Ledger
import CpuScheduler.RR.InFlight

/-!
# `memory.log` in a run

Whoever has nothing but `memory.log` and the places of the processes on the disk can tell what is
in the frames: what was put into a frame last is what is there, unless the frame waits for
`checkBlockEnd`, and then the log says what its process has asked for
(`CpuScheduler.World.Tells`, `CpuScheduler.World.reachable_tells`).
-/

namespace CpuScheduler

namespace World

open Fallible RRState Mem

variable {P : Params} {w w' : World} {e : Event} {base : ℤ → ℤ}

/-- **What the log tells of the memory**, where `base` is the place of each process on the disk. -/
structure Tells (base : ℤ → ℤ) (w : World) : Prop where
  places : ∀ d ∈ w.gen.sent ++ w.gen.queue, d.base = base d.id
  /-- A page that is mapped is what was put into its frame last, or its process is blocked, waits
  for it and has asked for it. -/
  resident : ∀ p x v e, w.rr.toMem.Live p x → w.rr.toMem.entry x v = some e → e.valid = true →
    ∃ i : Fin 32, e.frameAddress = i ∧
      (Ledger.contents (w.rr.toMem.ledger base) (i : ℤ) = some (x.id, x.base + v) ∨
        (p ∈ w.rr.blockQueue ∧ x.pendingPage = v ∧ x.pendingFrame = i ∧
          Ledger.asked (w.rr.toMem.ledger base) x.id = some (x.base + v)))
  /-- Nothing is loaded that was not asked for, but for page 0. -/
  answered : Ledger.Answered base (w.rr.toMem.ledger base)

/-- Processes with different ids have their places by their ids. -/
theorem exists_places {l : List ProcessData} (h : (l.map ProcessData.id).Nodup) :
    ∃ base : ℤ → ℤ, ∀ d ∈ l, d.base = base d.id := by
  induction l with
  | nil => exact ⟨fun _ => 0, List.forall_mem_nil _⟩
  | cons d l ih =>
    rw [List.map_cons, List.nodup_cons] at h
    obtain ⟨base, hbase⟩ := ih h.2
    refine ⟨Function.update base d.id d.base, fun d' hd' => ?_⟩
    rcases List.mem_cons.mp hd' with rfl | hd'
    · rw [Function.update_self]
    · have hne : d'.id ≠ d.id := fun he => h.1 (he ▸ List.mem_map_of_mem hd')
      rw [Function.update_of_ne hne]
      exact hbase d' hd'

/-- The processes of a run with their places. -/
theorem exists_reachable_places (h : (systemOn P Small).Reachable w) :
    ∃ base : ℤ → ℤ, (systemOn P fun d => Small d ∧ d.base = base d.id).Reachable w := by
  induction h with
  | init h =>
    obtain ⟨l, t, hl, hadm, ht, rfl⟩ := h
    obtain ⟨base, hbase⟩ := exists_places hl.ids
    exact ⟨base, .init ⟨l, t, hl, fun d hd => ⟨hadm d hd, hbase d hd⟩, ht, rfl⟩⟩
  | step _ hst ih =>
    obtain ⟨base, ih⟩ := ih
    exact ⟨base, ih.step hst⟩

theorem reachable_places (h : (systemOn P fun d => Small d ∧ d.base = base d.id).Reachable w) :
    ∀ d ∈ w.gen.sent ++ w.gen.queue, d.base = base d.id := by
  refine h.invariant (P := fun w => ∀ d ∈ w.gen.sent ++ w.gen.queue, d.base = base d.id) ?_ ?_
  · rintro w ⟨l, t, -, hadm, -, rfl⟩ d hd
    exact (hadm d hd).2
  · rintro w w' h ⟨e, hst⟩
    cases hst with
    | @send _ t d q hcur hq hdue =>
      intro d' hd'
      have hsent : d' ∈ (w.gen.sent ++ [d]) ++ q := hd'
      refine h d' ?_
      rw [hq]
      simpa using hsent
    | _ => exact h

theorem reachable_told (h : (systemOn P fun d => Small d ∧ d.base = base d.id).Reachable w) :
    Inv (Told base) (fun d => Paged d ∧ d.base = base d.id) w := by
  induction h with
  | init h =>
    obtain ⟨l, t, hl, hadm, -, rfl⟩ := h
    exact start_inv (init_told base) hl (fun d hd => ⟨(hadm d hd).1.1, (hadm d hd).2⟩) t
  | step h hst ih =>
    obtain ⟨e, hst⟩ := hst
    have hsmall := reachable_mono (fun _ hd => hd.1) h
    exact hst.inv (kept_told base) ih
      ((lowPages_of_small hsmall e).roomy fun _ _ _ _ _ _ _ => trivial)

/-- **The log tells what is in the memory**, in every state of every run. -/
theorem reachable_tells (h : (systemOn P Small).Reachable w) : ∃ base, Tells base w := by
  obtain ⟨base, h⟩ := exists_reachable_places h
  have hi := reachable_told h
  have htold := hi.held.mem
  refine ⟨base, reachable_places h, fun p x v e hx he hval => ?_, htold.answered⟩
  obtain ⟨i, -, hfa, hpage, -⟩ := htold.guarded.agree.valid hx he hval
  refine ⟨i, hfa, ?_⟩
  rw [htold.bases hx]
  by_cases hres : (w.rr.RAM i).reserved = true
  · -- the frame is reserved for whoever waits for what is in it, and that is this process
    obtain ⟨q, y, hy, hyf⟩ := htold.guarded.used hres
    obtain ⟨j, hj, hpage', -⟩ := htold.guarded.backed hy (by omega)
    obtain rfl := coe_inj (hyf.symm.trans hj)
    obtain rfl := htold.guarded.agree.toPlaced.wf.ids hy hx
      (hpage'.processId.symm.trans hpage.processId)
    obtain rfl := hy.unique hx
    have hv : y.pendingPage = v := hpage'.vpage.symm.trans hpage.vpage
    have hB : y.state = .B := by
      by_contra hB
      have hnone := (htold.guarded.orderly hy).idle hB
      omega
    refine Or.inr ⟨?_, hv, hyf, ?_⟩
    · rcases hi.held.mem_iff.mp hy.1 with hnone | hrun | hready | hblock
      · exact absurd hnone List.not_mem_nil
      · rw [(hi.held.running q hrun).eq hy.2] at hB
        simp at hB
      · rw [(hi.held.ready q hready).eq hy.2] at hB
        simp at hB
      · exact hblock
    · rw [← hv]
      exact htold.waits hx (by omega)
  · exact Or.inl (htold.holds hpage (Bool.eq_false_iff.mpr hres))

/-- The frame 2 waits for the page 1 of the blocked process, and the log has only its fault. -/
theorem reachable_tells_preempted : ∃ w,
    playAll threeParams (start threeAtOnce 1) preemptedRun = some w ∧
    w.rr.blockQueue = [0] ∧
    w.rr.toMem.ledger (fun _ => 0) = [.put 1 1 0, .ask 1 1, .put 4 2 0, .put 6 3 0] ∧
    ∃ base, Tells base w := by
  have hrun : (playAll threeParams (start threeAtOnce 1) preemptedRun).map
      (fun w => (w.rr.blockQueue, w.rr.toMem.ledger fun _ => 0)) =
        some ([0], [.put 1 1 0, .ask 1 1, .put 4 2 0, .put 6 3 0]) := by
    decide +kernel
  obtain ⟨w, hw, he⟩ := Option.map_eq_some_iff.mp hrun
  obtain ⟨hB, hlog⟩ := Prod.mk.inj he
  exact ⟨w, hw, hB, hlog, reachable_tells (playAll_reachable small_threeAtOnce hw)⟩

end World

end CpuScheduler
