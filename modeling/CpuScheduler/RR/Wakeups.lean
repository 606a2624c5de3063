import CpuScheduler.RR.InFlight
import CpuScheduler.RR.Lockstep

/-!
# When a blocked process wakes up

`checkBlockEnd` takes out of the block queue exactly the processes whose time has come
(`CpuScheduler.RRState.Scanned`). It has three call sites, and which of them is used
depends on a flag, on the deadline and on whether the clock has moved
(`CpuScheduler.World.scanning`). In lockstep with the clock, it is called exactly once
for each tick, and so a process that faults sleeps for exactly the delay of its fault.
-/

namespace CpuScheduler

/-- The cuts between the first scan of the block queue and the end of the iteration. -/
def Pc.afterScan : Pc → Bool
  | .finish | .reap | .gate | .receive | .algo | .last => true
  | _ => false

namespace RRState

open Fallible Mem

variable {P : Params} {clk : Clk} {s s' t : RRState} {l c : List Ptr} {p q : Ptr} {x y : PCB}
  {now : ℤ}

/-! ### One node -/

/-- Nothing but the PCB of the process is written when its reservation is released. -/
theorem releasePending_frame (hx : s.heap p = some x) {k : ℕ}
    (h : s.releasePending clk k p = .ok s') : ∃ m, s' = { s with toMem := m } ∧
      (∃ y, m.heap p = some y) ∧ ∀ q, q ≠ p → m.heap q = s.heap q := by
  rw [releasePending, pcb_eq hx, ok_bind] at h
  split_ifs at h with hpend
  · obtain ⟨s₁, hs₁, h⟩ := bind_eq_ok.mp h
    obtain ⟨m, hm, h₁⟩ := bind_eq_ok.mp hs₁
    obtain rfl := Except.ok.inj h₁
    have hheap : m.heap = s.heap := by
      obtain ⟨i, -, rfl⟩ := freeReserved_eq_ok hm
      rfl
    have hxm : ({ s with toMem := m } : RRState).heap p = some x := (congrFun hheap p).trans hx
    rw [update_eq hxm] at h
    obtain rfl := Except.ok.inj h
    exact ⟨_, rfl, ⟨_, withPcb_heap_self ..⟩, fun q hq =>
      (withPcb_heap_of_ne hq _).trans (congrFun hheap q)⟩
  · obtain rfl := Except.ok.inj h
    exact ⟨s.toMem, rfl, ⟨x, hx⟩, fun q _ => rfl⟩

/-- **The body of `checkBlockEnd`**, for a process that is blocked. -/
theorem unblock_frame (h : s.Custody l c) (hp : p ∈ s.blockQueue) (hx : s.heap p = some x) {k : ℕ}
    (hu : s.unblock clk k x.id = .ok s') : s'.blockQueue = s.blockQueue.erase p ∧
      s'.readyQueue = s.readyQueue ++ [p] ∧ ∀ q, q ≠ p → s'.heap q = s.heap q := by
  have hlive : s.toMem.Live p x := ⟨h.mem_iff.mpr (Or.inr (Or.inr (Or.inr hp))), hx⟩
  have htake : Queue.dequeueById s.idOf x.id s.blockQueue = .ok (some (p, s.blockQueue.erase p)) :=
    Queue.dequeueById_self (fun q hq => h.wf.idOf_inj hlive q
      (h.mem_iff.mpr (Or.inr (Or.inr (Or.inr hq))))) hp (idOf_eq hx)
  rw [unblock, htake, ok_bind] at hu
  dsimp only at hu
  obtain ⟨s₁, hs₁, hu⟩ := bind_eq_ok.mp hu
  obtain ⟨m, rfl, ⟨y, hy⟩, hframe⟩ := releasePending_frame (s := { s with
    blockQueue := s.blockQueue.erase p }) hx hs₁
  rw [update_eq (s := { s with toMem := m, blockQueue := s.blockQueue.erase p }) hy, ok_bind] at hu
  obtain rfl := Except.ok.inj hu
  exact ⟨rfl, rfl, fun q hq => (withPcb_heap_of_ne hq _).trans (hframe q hq)⟩

/-- The walk has gone over the nodes `nodes` of the block queue at the time `now`. -/
structure Walked (now : ℤ) (nodes : List Ptr) (s s' : RRState) : Prop where
  sub : s'.blockQueue ⊆ s.blockQueue
  ready : s.readyQueue ⊆ s'.readyQueue
  /-- Whose time has come is ready, -/
  woken : ∀ p ∈ nodes, ∀ x, s.heap p = some x → x.unblockAt ≤ now →
    p ∉ s'.blockQueue ∧ p ∈ s'.readyQueue
  /-- and nobody else has been taken out. -/
  asleep : ∀ p ∈ s.blockQueue, ∀ x, s.heap p = some x → (p ∈ nodes → now < x.unblockAt) →
    p ∈ s'.blockQueue

/-- The walk over the nodes. -/
theorem blockEndFrom_walked (hclk : ∀ k, clk (.blockEnd k) = now) : ∀ (nodes : List Ptr) (k : ℕ)
    {s s' : RRState}, s.Custody l c → nodes.Nodup → s.blockQueue.Nodup → nodes ⊆ s.blockQueue →
    s.blockEndFrom clk k nodes = .ok s' → Walked now nodes s s'
  | [], _, s, s', _, _, _, _, h => by
    obtain rfl := Except.ok.inj h
    exact ⟨List.Subset.refl _, List.Subset.refl _, List.forall_mem_nil _, fun p hp _ _ _ => hp⟩
  | p :: nodes, k, s, s', hc, hn, hb, hsub, h => by
    obtain ⟨hpn, hn⟩ := List.nodup_cons.mp hn
    obtain ⟨s₁, h₁, h⟩ := bind_eq_ok.mp h
    have hp : p ∈ s.blockQueue := hsub List.mem_cons_self
    have hsub' : nodes ⊆ s.blockQueue := fun q hq => hsub (List.mem_cons_of_mem _ hq)
    obtain ⟨x, hx, -⟩ := hc.blocked p hp
    have hheld : Held (fun _ => True) s l c := ⟨hc, trivial⟩
    have hc₁ := ((blockEndNode_outcome kept_true hheld clk k p).of_ok h₁).1.toCustody
    rw [blockEndNode, pcb_eq hx, ok_bind, hclk] at h₁
    split_ifs at h₁ with hdue
    · -- it is taken out, and the walk goes on without it
      obtain ⟨hq₁, hr₁, hframe⟩ := unblock_frame hc hp hx h₁
      have hne : ∀ q ∈ nodes, q ≠ p := by
        rintro q hq rfl
        exact hpn hq
      have hih := blockEndFrom_walked hclk nodes (k + 1) hc₁ hn (hq₁ ▸ hb.erase p)
        (fun q hq => hq₁ ▸ (List.mem_erase_of_ne (hne q hq)).mpr (hsub' hq)) h
      have hout : p ∉ s'.blockQueue := fun hm =>
        (List.Nodup.mem_erase_iff hb).mp (hq₁ ▸ hih.sub hm) |>.1 rfl
      have hin : p ∈ s'.readyQueue :=
        hih.ready (hr₁ ▸ List.mem_append_right _ (List.mem_singleton.mpr rfl))
      refine ⟨fun q hq => List.mem_of_mem_erase (hq₁ ▸ hih.sub hq),
        fun q hq => hih.ready (hr₁ ▸ List.mem_append_left _ hq), fun q hq y hy hle => ?_,
        fun q hq y hy hlt => ?_⟩
      · rcases List.mem_cons.mp hq with rfl | hq
        · exact ⟨hout, hin⟩
        · exact hih.woken q hq y ((hframe q (hne q hq)).trans hy) hle
      · by_cases hqp : q = p
        · subst hqp
          obtain rfl := Option.some.inj (hx.symm.trans hy)
          have := hlt List.mem_cons_self
          omega
        · exact hih.asleep q (hq₁ ▸ (List.mem_erase_of_ne hqp).mpr hq) y
            ((hframe q hqp).trans hy) fun hq => hlt (List.mem_cons_of_mem _ hq)
    · -- it stays
      obtain rfl := Except.ok.inj h₁
      have hih := blockEndFrom_walked hclk nodes (k + 1) hc hn hb hsub' h
      refine ⟨hih.sub, hih.ready, fun q hq y hy hle => ?_, fun q hq y hy hlt =>
        hih.asleep q hq y hy fun hq => hlt (List.mem_cons_of_mem _ hq)⟩
      rcases List.mem_cons.mp hq with rfl | hq
      · obtain rfl := Option.some.inj (hx.symm.trans hy)
        exact absurd hle hdue
      · exact hih.woken q hq y hy hle

theorem Custody.block_nodup (h : s.Custody l c) : s.blockQueue.Nodup := by
  have hn : (s.currentPCBs : Multiset Ptr).Nodup := Multiset.coe_nodup.mpr h.wf.nodup
  rw [h.places] at hn
  exact Multiset.coe_nodup.mp (Multiset.nodup_of_le (Multiset.le_add_left _ _) hn)

/-- **`checkBlockEnd`**: the block queue has been scanned at the time `now`. -/
abbrev Scanned (now : ℤ) (s s' : RRState) : Prop := Walked now s.blockQueue s s'

theorem checkBlockEnd_scanned (hc : s.Custody l c) (hclk : ∀ k, clk (.blockEnd k) = now)
    (h : s.checkBlockEnd clk = .ok s') : Scanned now s s' := by
  have hc' : ({ s with scans := s.scans + 1 } : RRState).Custody l c := hc.of_eq rfl rfl rfl rfl rfl
  have hw := blockEndFrom_walked hclk _ 0 hc' hc.block_nodup hc.block_nodup (List.Subset.refl _) h
  exact ⟨hw.sub, hw.ready, hw.woken, hw.asleep⟩

/-- A memory operation is not a call of `checkBlockEnd`. -/
theorem onMem_scans {r : Except Fault Mem} (h : s.onMem r = .ok s') : s'.scans = s.scans := by
  obtain ⟨m, -, h⟩ := bind_eq_ok.mp h
  obtain rfl := Except.ok.inj h
  rfl

theorem releasePending_scans {k : ℕ} (h : s.releasePending clk k p = .ok s') :
    s'.scans = s.scans := by
  obtain ⟨x, -, h⟩ := bind_eq_ok.mp h
  split_ifs at h with hpend
  · obtain ⟨s₁, h₁, h⟩ := bind_eq_ok.mp h
    exact (onMem_scans h).trans (onMem_scans h₁)
  · obtain rfl := Except.ok.inj h
    rfl

theorem unblock_scans {k : ℕ} {id : ℤ} (h : s.unblock clk k id = .ok s') : s'.scans = s.scans := by
  obtain ⟨r, -, h⟩ := bind_eq_ok.mp h
  cases r with
  | none =>
    obtain rfl := Except.ok.inj h
    rfl
  | some r =>
    obtain ⟨p, rest⟩ := r
    obtain ⟨s₁, h₁, h⟩ := bind_eq_ok.mp h
    obtain ⟨s₂, h₂, h⟩ := bind_eq_ok.mp h
    obtain rfl := Except.ok.inj h
    have hrel : s₁.scans = s.scans :=
      releasePending_scans (s := { s with blockQueue := rest }) h₁
    exact (onMem_scans h₂).trans hrel

theorem blockEndFrom_scans : ∀ (nodes : List Ptr) (k : ℕ) {s s' : RRState},
    s.blockEndFrom clk k nodes = .ok s' → s'.scans = s.scans
  | [], _, s, s', h => by
    obtain rfl := Except.ok.inj h
    rfl
  | p :: nodes, k, s, s', h => by
    obtain ⟨s₁, h₁, h⟩ := bind_eq_ok.mp h
    obtain ⟨x, -, h₁⟩ := bind_eq_ok.mp h₁
    refine (blockEndFrom_scans nodes (k + 1) h).trans ?_
    split_ifs at h₁ with hdue
    · exact unblock_scans h₁
    · obtain rfl := Except.ok.inj h₁
      rfl

/-- **A call of `checkBlockEnd` is one call.** -/
theorem checkBlockEnd_scans (h : s.checkBlockEnd clk = .ok s') : s'.scans = s.scans + 1 :=
  blockEndFrom_scans s.blockQueue 0 h

theorem checkOnce_scans (h : s.checkOnce clk = .ok s') :
    s'.scans = s.scans + if s.checked = false then 1 else 0 := by
  rw [checkOnce] at h
  cases hck : s.checked with
  | true =>
    rw [if_pos hck] at h
    obtain rfl := Except.ok.inj h
    rfl
  | false =>
    rw [if_neg (by simp [hck])] at h
    obtain ⟨s₁, h₁, h⟩ := bind_eq_ok.mp h
    have hscan := checkBlockEnd_scans h₁
    obtain rfl := Except.ok.inj h
    exact hscan

/-! ### The three call sites -/

/-- The processes whose time has come, and no others, have left the block queue, and they are
ready. -/
def Woke (now : ℤ) (s s' : RRState) : Prop :=
  ∀ p ∈ s.blockQueue, ∀ x, s.heap p = some x →
    (x.unblockAt ≤ now → p ∉ s'.blockQueue ∧ p ∈ s'.readyQueue) ∧
      (now < x.unblockAt → p ∈ s'.blockQueue)

theorem Walked.woke (h : Scanned now s s') : Woke now s s' := fun p hp x hx =>
  ⟨h.woken p hp x hx, fun hlt => h.asleep p hp x hx fun _ => hlt⟩

/-- The scan in front of a dispatch is that of `checkOnce`. -/
theorem checkOnce_of_before {s₁ : RRState} (hx : s.heap p = some x) (hp : s.currProcess = some p)
    (hbefore : s.beforeDispatch clk = .ok { s₁ with checked := true }) :
    (s.stopped clk p x).checkOnce clk = .ok { s₁ with checked := true } := by
  rw [← hbefore]
  simp only [beforeDispatch, hp, stopCurrent_eq clk hx, ok_bind]

/-- The scan in the middle of a preemption. The process that is dispatched then is not one
that has just woken up: the one that was running is in front of it. -/
theorem preempt_woke {s₁ s₂ : RRState} {d : ℤ} (hc : s.Custody [] [p])
    (hx : s.heap p = some x) (hfresh : s.checked = false)
    (hclk : ∀ k, clk (.blockEnd k) = now) (hp : s.currProcess = some p)
    (hu : Unblocks (s.stopped clk p x) s₁)
    (hbefore : s.beforeDispatch clk = .ok { s₁ with checked := true })
    (hd : Dispatches P clk { s₁ with checked := true, nextPreemtionTime := d } s₂) :
    Woke now s s₂ := by
  have hstop : (s.stopped clk p x).Custody [] [] :=
    (stopped_held clk kept_true ⟨hc, trivial⟩ hx).toCustody
  have honce := checkOnce_of_before hx hp hbefore
  have hnot : (s.stopped clk p x).checked ≠ true := hfresh ▸ (by simp)
  rw [checkOnce, if_neg hnot] at honce
  obtain ⟨s₀, hs₀, he⟩ := bind_eq_ok.mp honce
  have he := Except.ok.inj he
  have hb₀ : s₁.blockQueue = s₀.blockQueue := (congrArg blockQueue he).symm
  have hr₀ : s₁.readyQueue = s₀.readyQueue := (congrArg readyQueue he).symm
  have hwoke := (checkBlockEnd_scanned hstop hclk hs₀).woke
  intro q hq y hy
  have hqp : q ≠ p := by
    rintro rfl
    obtain ⟨z, hz, hB⟩ := hc.blocked q hq
    exact absurd (hB.symm.trans ((hc.running q (List.mem_singleton.mpr rfl)).eq hz)) (by simp)
  obtain ⟨hwoken, hasleep⟩ := hwoke q hq y ((withPcb_heap_of_ne hqp _).trans hy)
  obtain ⟨m, u, b, n, -, -, hs₁⟩ := hu
  cases hd with
  | @intro r z m' rest line hrq _ _ _ _ =>
    have hrq : s₁.readyQueue = r :: rest := hrq
    refine ⟨fun hle => ?_, fun hlt => ?_⟩
    · obtain ⟨hout, hin⟩ := hwoken hle
      refine ⟨fun hm => hout (hb₀ ▸ hm), ?_⟩
      -- the process in front was ready or running before
      have hne : q ≠ r := by
        have hfront : s.readyQueue ++ [p] ++ u = r :: rest := by
          rw [← hrq, hs₁]
          rfl
        have hr : r ∈ s.readyQueue ∨ r = p := by
          cases hready : s.readyQueue with
          | nil =>
            rw [hready] at hfront
            exact Or.inr (List.cons.inj hfront).1.symm
          | cons a l =>
            rw [hready] at hfront
            exact Or.inl ((List.cons.inj hfront).1 ▸ List.mem_cons_self)
        rintro rfl
        obtain ⟨z, hz, hB⟩ := hc.blocked q hq
        rcases hr with hr | hr
        · exact absurd (hB.symm.trans ((hc.ready q hr).eq hz)) (by simp)
        · exact hqp hr
      have hmem : q ∈ r :: rest := hrq ▸ hr₀ ▸ hin
      exact (List.mem_cons.mp hmem).resolve_left hne
    · show q ∈ s₁.blockQueue
      rw [hb₀]
      exact hasleep hlt

/-- A preemption after the scan at the top of the loop does not scan again. -/
theorem preempt_kept {s₁ s₂ : RRState} {d : ℤ} (hx : s.heap p = some x)
    (hdone : s.checked = true) (hp : s.currProcess = some p)
    (hbefore : s.beforeDispatch clk = .ok { s₁ with checked := true })
    (hd : Dispatches P clk { s₁ with checked := true, nextPreemtionTime := d } s₂) :
    s₂.blockQueue = s.blockQueue := by
  have honce := checkOnce_of_before hx hp hbefore
  have hdone' : (s.stopped clk p x).checked = true := hdone
  rw [checkOnce, if_pos hdone'] at honce
  have hb : (s.stopped clk p x).blockQueue = ({ s₁ with checked := true } : RRState).blockQueue :=
    congrArg blockQueue (Except.ok.inj honce)
  cases hd
  exact hb.symm

/-- It is one, unless the block queue has been scanned at the top of the loop. -/
theorem preempt_scans {s₁ s₂ : RRState} {d : ℤ} (hx : s.heap p = some x)
    (hp : s.currProcess = some p)
    (hbefore : s.beforeDispatch clk = .ok { s₁ with checked := true })
    (hd : Dispatches P clk { s₁ with checked := true, nextPreemtionTime := d } s₂) :
    s₂.scans = s.scans + if s.checked = false then 1 else 0 := by
  have hscan := checkOnce_scans (checkOnce_of_before hx hp hbefore)
  cases hd
  exact hscan

/-- Between the scans, the flag stays as it is. -/
theorem Turn.flagged {K : Mem → Prop} (ht : Turn K P clk s s') (hpc : s.pc.afterScan = true)
    (halgo : s.pc ≠ .algo) (hlast : s.pc ≠ .last) :
    s'.checked = s.checked ∧ s'.now = s.now ∧ s'.pc.afterScan = true := by
  cases ht with
  | algo hpc' => exact absurd hpc' halgo
  | lastScan hpc' => exact absurd hpc' hlast
  | exit hpc' | spin hpc' | tick hpc' | idle hpc' | serve hpc' | firstScan hpc' =>
    rw [hpc'] at hpc
    exact nomatch hpc
  | arrive hpc' _ _ => exact ⟨rfl, rfl, hpc⟩
  | drop hpc' _ _ _ _ => exact ⟨rfl, rfl, hpc⟩
  | _ => exact ⟨rfl, rfl, rfl⟩

/-- There are no other calls. -/
theorem Turn.scans {K : Mem → Prop} (ht : Turn K P clk s s') (hfirst : s.pc ≠ .blockEnd)
    (halgo : s.pc ≠ .algo) (hlast : s.pc ≠ .last) : s'.scans = s.scans := by
  cases ht with
  | algo hpc' => exact absurd hpc' halgo
  | lastScan hpc' => exact absurd hpc' hlast
  | firstScan hpc' => exact absurd hpc' hfirst
  | serve hpc hcur hs =>
    obtain ⟨rq, mq, hf⟩ := fetched_eq clk s
    rw [hf] at hs
    cases hs <;> rfl
  | _ => rfl

/-- Nobody leaves the block queue but in a scan. -/
theorem Turn.blocked_stay {K : Mem → Prop} (ht : Turn K P clk s s') (hfirst : s.pc ≠ .blockEnd)
    (halgo : s.pc ≠ .algo) (hlast : s.pc ≠ .last) : s.blockQueue ⊆ s'.blockQueue := by
  cases ht with
  | algo hpc' => exact absurd hpc' halgo
  | lastScan hpc' => exact absurd hpc' hlast
  | firstScan hpc' => exact absurd hpc' hfirst
  | serve hpc hcur hs =>
    obtain ⟨rq, mq, hf⟩ := fetched_eq clk s
    rw [hf] at hs
    cases hs with
    | keep hd hm hrq => exact List.Subset.refl _
    | block hx hd hf hm hrq hr => exact fun q hq => Queue.mem_enqueue.mpr (Or.inl hq)
    | switch hp hx hd hf hm hrq => exact fun q hq => Queue.mem_enqueue.mpr (Or.inl hq)
  | _ => exact List.Subset.refl _

end RRState

namespace World

open RRState Mem Fallible

variable {P : Params} {C : World → Event → Prop} {w w' : World} {e : Event} {clk : Clk} {t : ℤ}
  {s : RRState} {n : ℕ}

/-- How often a step calls `checkBlockEnd`, by the three guards. -/
def scanning (w : World) : Event → ℕ
  | .sched clk _ =>
    match w.rr.pc with
    | .blockEnd => if w.rr.nextPreemtionTime ≠ w.rr.now ∨ w.rr.currProcess = none then 1 else 0
    | .algo => if w.rr.Preempting clk ∧ w.rr.checked = false then 1 else 0
    | .last => if w.rr.checked = false ∧ clk .loopEnd = w.rr.now then 1 else 0
    | _ => 0
  | _ => 0

/-- A flag as a number of calls. -/
def calls (b : Bool) : ℕ := if b then 1 else 0

/-- **A step that calls `checkBlockEnd`** wakes those up whose time has come, and sets the
flag, unless it is the last one of the iteration. -/
structure Scans (w : World) (s : RRState) (n : ℕ) : Prop where
  woke : n = 1 → Woke w.rr.now w.rr s
  kept : n = 0 → w.rr.blockQueue ⊆ s.blockQueue
  calls : n = 0 ∨ n = 1
  count : s.scans = w.rr.scans + n

/-- The first scan. -/
theorem firstScan_scans (hc : w.rr.Custody [] w.rr.currProcess.toList) (hpc : w.rr.pc = .blockEnd)
    (hlock : Lockstep w (.sched clk t)) (hs : w.rr.phase P clk = .ok s) :
    Scans w s (scanning w (.sched clk t)) ∧ s.pc = .finish ∧ s.now = w.rr.now ∧
      calls s.checked = scanning w (.sched clk t) := by
  have hclk := (hlock.inTurn (by rw [hpc]; rfl) (by simp [hpc])).1
  rw [phase, hpc] at hs
  obtain ⟨s₁, hs₁, hs⟩ := bind_eq_ok.mp hs
  obtain rfl := Except.ok.inj hs
  have hc' : ({ w.rr with checked := false } : RRState).Custody [] w.rr.currProcess.toList :=
    hc.of_eq rfl rfl rfl rfl rfl
  rw [firstScan] at hs₁
  have hn : scanning w (.sched clk t) =
      if w.rr.nextPreemtionTime ≠ w.rr.now ∨ w.rr.currProcess = none then 1 else 0 := by
    simp only [scanning, hpc]
  rw [hn]
  dsimp only at hs₁
  split_ifs at hs₁ with hscan
  · rw [checkOnce, if_neg (show (false : Bool) ≠ true from (by simp))] at hs₁
    obtain ⟨s₂, hs₂, hs₁⟩ := bind_eq_ok.mp hs₁
    obtain rfl := Except.ok.inj hs₁
    rw [if_pos hscan]
    have hnow : s₂.now = w.rr.now := by
      obtain ⟨-, m, u, b, n, -, -, rfl⟩ := (checkBlockEnd_outcome kept_true (s := { w.rr with
        checked := false }) ⟨hc', trivial⟩ clk).of_ok hs₂
      rfl
    have hcount : s₂.scans = w.rr.scans + 1 :=
      checkBlockEnd_scans (s := { w.rr with checked := false }) hs₂
    refine ⟨⟨fun _ => ?_, (by simp), Or.inr rfl, hcount⟩, rfl, hnow, rfl⟩
    exact (checkBlockEnd_scanned hc' (fun k => hclk (.blockEnd k)) hs₂).woke
  · obtain rfl := Except.ok.inj hs₁
    rw [if_neg hscan]
    exact ⟨⟨by simp, fun _ => List.Subset.refl _, Or.inl rfl, rfl⟩, rfl, rfl, rfl⟩

/-- The last scan. -/
theorem lastScan_scans (hc : w.rr.Custody [] w.rr.currProcess.toList) (hpc : w.rr.pc = .last)
    (hlock : Lockstep w (.sched clk t)) (hs : w.rr.phase P clk = .ok s) :
    Scans w s (scanning w (.sched clk t)) ∧ s.pc = .top ∧ s.now = w.rr.now := by
  rw [Lockstep, hpc] at hlock
  rw [phase, hpc] at hs
  obtain ⟨s₁, hs₁, hs⟩ := bind_eq_ok.mp hs
  obtain rfl := Except.ok.inj hs
  rw [lastScan] at hs₁
  have hn : scanning w (.sched clk t) =
      if w.rr.checked = false ∧ clk .loopEnd = w.rr.now then 1 else 0 := by
    simp only [scanning, hpc]
  rw [hn]
  simp only [Bool.not_eq_eq_eq_not, Bool.not_true] at hs₁
  split_ifs at hs₁ with hscan
  · rw [if_pos hscan]
    have hnow : s₁.now = w.rr.now := by
      obtain ⟨-, m, u, b, n, -, -, rfl⟩ := (checkBlockEnd_outcome kept_true
        ⟨hc, trivial⟩ clk).of_ok hs₁
      rfl
    have hcount : s₁.scans = w.rr.scans + 1 := checkBlockEnd_scans hs₁
    refine ⟨⟨fun _ => ?_, (by simp), Or.inr rfl, hcount⟩, rfl, hnow⟩
    have hclk : ∀ k, clk (.blockEnd k) = w.rr.now := fun k =>
      (hlock.1 _).trans ((hlock.1 .loopEnd).symm.trans hscan.2)
    exact (checkBlockEnd_scanned hc hclk hs₁).woke
  · obtain rfl := Except.ok.inj hs₁
    rw [if_neg hscan]
    exact ⟨⟨by simp, fun _ => List.Subset.refl _, Or.inl rfl, rfl⟩, rfl, rfl⟩

/-- The scan in the middle of a preemption. -/
theorem algo_scans (hc : w.rr.Custody [] w.rr.currProcess.toList) (hpc : w.rr.pc = .algo)
    (hlock : Lockstep w (.sched clk t)) (ht : Turn (fun _ => True) P clk w.rr s) :
    Scans w s (scanning w (.sched clk t)) ∧ s.pc = .last ∧ s.now = w.rr.now ∧
      calls s.checked = calls w.rr.checked + scanning w (.sched clk t) := by
  rw [Lockstep, hpc] at hlock
  obtain ⟨hclk, -⟩ := hlock
  have hread : ∀ k, clk (.blockEnd k) = w.rr.now := fun k => by
    rw [hclk]
    rfl
  have hn : scanning w (.sched clk t) =
      if w.rr.Preempting clk ∧ w.rr.checked = false then 1 else 0 := by
    simp only [scanning, hpc]
  rw [hn]
  cases ht with
  | @algo s₁ m print cl _ hd hm _ =>
    obtain ⟨j, hperm⟩ : ∃ j,
        RRState.permit { s₁ with toMem := m, lastPrint := print, clears := cl } =
          { s₁ with toMem := m, lastPrint := print, clears := cl, sem := j } := by
      rw [permit]
      split_ifs
      · exact ⟨1, rfl⟩
      · exact ⟨_, rfl⟩
    rw [hperm]
    rcases hd with ⟨hpos, hd⟩ | ⟨hneg, rfl⟩
    · cases hd with
      | stay hrun hidle =>
        rw [if_neg fun hpre => absurd hpre.1.2.2.1 (not_le.mpr (hrun hpre.1.1))]
        exact ⟨⟨by simp, fun _ => List.Subset.refl _, Or.inl rfl, rfl⟩, rfl, rfl, rfl⟩
      | extend hp hext =>
        rw [if_neg fun hpre => hpre.1.2.2.2 hext]
        exact ⟨⟨by simp, fun _ => List.Subset.refl _, Or.inl rfl, rfl⟩, rfl, rfl, rfl⟩
      | dispatch hp hd =>
        rw [if_neg fun hpre => hpre.1.1 hp]
        cases hd
        exact ⟨⟨by simp, fun _ => List.Subset.refl _, Or.inl rfl, rfl⟩, rfl, rfl, rfl⟩
      | @preempt p x s₂ _ hp hx hdue hwait hu hheld hbefore hd =>
        have hpre : w.rr.Preempting clk := ⟨by rw [hp]; simp, hpos, hdue⟩
        have hkept : s₁.checked = true ∧ s₁.now = w.rr.now := by
          obtain ⟨m', u, b, n, -, -, rfl⟩ := id hu
          cases id hd
          exact ⟨rfl, rfl⟩
        have hflag : calls s₁.checked = 1 := by rw [hkept.1]; rfl
        rw [hp] at hc
        have hcount := preempt_scans hx hp hbefore hd
        cases hdone : w.rr.checked with
        | true =>
          rw [if_neg fun hc => absurd hc.2 (by simp)]
          rw [hdone] at hcount
          refine ⟨⟨by simp, fun _ => ?_, Or.inl rfl, hcount⟩, rfl, hkept.2, hflag⟩
          exact fun q hq => (preempt_kept hx hdone hp hbefore hd).symm ▸ hq
        | false =>
          rw [if_pos ⟨hpre, rfl⟩]
          rw [hdone] at hcount
          refine ⟨⟨fun _ => ?_, (by simp), Or.inr rfl, hcount⟩, rfl, hkept.2, hflag⟩
          have hwoke := preempt_woke hc hx hdone hread hp hu hbefore hd
          exact hwoke
    · rw [if_neg fun hpre => absurd hpre.1.2.1 (not_lt.mpr hneg)]
      exact ⟨⟨by simp, fun _ => List.Subset.refl _, Or.inl rfl, rfl⟩, rfl, rfl, rfl⟩
  | _ hpc' => exact absurd (hpc.symm.trans hpc') (by simp)

/-! ### How long a process sleeps -/

/-- The runs in lockstep with the clock in which the pages that are demanded are among the
first 64. -/
def Punctual (w : World) (e : Event) : Prop := Lockstep w e ∧ LowPages w e

theorem punctual_guarded (h : (systemIf P Paged Punctual).Reachable w) :
    Inv (Guarded fun _ _ _ _ => True) Paged w :=
  reachable_inv_if (kept_guarded _) (init_guarded _)
    (fun _ clk t hC => hC.2.roomy (fun _ _ _ _ _ _ _ => trivial) clk t rfl) h

theorem punctual_reachable (h : (systemIf P Paged Punctual).Reachable w) :
    (system P).Reachable w :=
  reachable_mono (fun _ _ => trivial) (reachable_of_if h)

theorem punctual_ticking (h : (systemIf P Paged Punctual).Reachable w) : Ticking w :=
  reachable_ticking (fun _ _ hC => hC.1) h

/-- **What a process waits for** does not change while it is blocked, and when it is blocked,
it is the tick at which the delay of its fault is over. -/
theorem Step.sleeping (hst : Step P e w w') (hi : Inv (fun _ => True) (fun _ => True) w)
    (hg : Inv (Guarded fun _ _ _ _ => True) Paged w) (hC : Punctual w e) {p : Ptr} {y : PCB}
    (hp : p ∈ w'.rr.blockQueue) (hy : w'.rr.heap p = some y) :
    (p ∈ w.rr.blockQueue ∧ ∃ x, w.rr.heap p = some x ∧ y.unblockAt = x.unblockAt) ∨
      (p ∉ w.rr.blockQueue ∧ w.rr.pc = .requests ∧
        y.unblockAt = w.rr.now + demandDelay w.rr.RAM) := by
  by_cases hB : p ∈ w.rr.blockQueue
  · obtain ⟨x, hx, -⟩ := hi.held.blocked p hB
    obtain ⟨z, hz, -, -, hu⟩ := hst.waiting hg hC.2 hB hp hx
    obtain rfl := Option.some.inj (hz.symm.trans hy)
    exact Or.inl ⟨hB, x, hx, hu⟩
  · refine Or.inr ⟨hB, ?_⟩
    cases hst with
    | @sched _ clk s t hclk hs =>
      have ht := hi.turn hs
      obtain ⟨hpc, hcur, v, hd⟩ := ht.blocks hB hp
      refine ⟨hpc, ?_⟩
      have hconst := (hC.1.inTurn (by rw [hpc]; rfl) (by rw [hpc]; exact nofun)).1
      have hv : v < 64 := hC.2 hpc hcur p v hd
      cases ht with
      | serve _ _ hserve =>
        obtain ⟨-, x, hx⟩ := hd.not_blocked hi.held.toCustody
        obtain ⟨rq, mq, he⟩ := fetched_eq clk w.rr
        rw [he] at hserve hd
        obtain ⟨-, z, m, c, hdem, hheap, -⟩ := hserve.demands hg.held.mem hx hd hv
        obtain rfl : z = y := by
          rw [hheap, hdem.only.heap, withPcb_heap_self] at hy
          exact Option.some.inj hy
        obtain ⟨site, hu⟩ := hdem.wakes
        rw [hu, hconst]
      | idle _ hnone =>
        rw [hnone] at hcur
        exact nomatch hcur
      | _ hpc' => exact nomatch hpc.symm.trans hpc'
    | @child _ q s hs =>
      obtain ⟨c, -, -, -, ⟨-, rfl⟩ | ⟨-, -, rfl⟩⟩ := childStep_cases hs
      · exact absurd hp hB
      · exact absurd hp hB
    | _ => exact absurd hp hB

/-! ### One scan for each tick -/

/-- A state of the system, the number of calls of `checkBlockEnd` in the current iteration,
and for each process the tick of its last fault, with the delay of that fault. -/
structure Wakeups where
  world : World
  scans : ℕ
  fault : Ptr → ℤ × ℤ

/-- The calls of an iteration are counted from its begin on. -/
def counting (w w' : World) (n : ℕ) : ℕ :=
  if w'.rr.pc = .requests then 0 else n + (w'.rr.scans - w.rr.scans)

/-- The calls that the guards make one expect. -/
def expecting (w w' : World) (n : ℕ) (e : Event) : ℕ :=
  if w'.rr.pc = .requests then 0 else n + scanning w e

theorem counting_eq (h : w'.rr.scans = w.rr.scans + scanning w e) (n : ℕ) :
    counting w w' n = expecting w w' n e := by
  rw [counting, expecting, h, Nat.add_sub_cancel_left]

/-- A process that faults is put into the block queue. -/
def faulting (w w' : World) (f : Ptr → ℤ × ℤ) : Ptr → ℤ × ℤ := fun p =>
  if p ∈ w'.rr.blockQueue ∧ p ∉ w.rr.blockQueue then (w.rr.now, demandDelay w.rr.RAM) else f p

/-- The runs in lockstep, recorded. -/
def wakeups (P : Params) : TransitionSystem Wakeups where
  init a := (systemOn P Paged).init a.world ∧ a.scans = 0
  step a b := ∃ e, Step P e a.world b.world ∧ Punctual a.world e ∧
    b.scans = counting a.world b.world a.scans ∧
    b.fault = faulting a.world b.world a.fault

theorem wakeups_reachable {a : Wakeups} (h : (wakeups P).Reachable a) :
    (systemIf P Paged Punctual).Reachable a.world := by
  refine TransitionSystem.Reachable.map (T := systemIf P Paged Punctual)
    (f := Wakeups.world) ?_ ?_ h
  · rintro a ⟨ha, -⟩
    exact ha
  · rintro a b - ⟨e, hst, hC, -⟩
    exact Or.inl ⟨e, hst, hC⟩

/-- A step of the scheduler, at any cut. -/
theorem sched_scans (hi : Inv (fun _ => True) (fun _ => True) w)
    (hlock : Lockstep w (.sched clk t)) (hs : w.rr.phase P clk = .ok s) :
    Scans w s (scanning w (.sched clk t)) := by
  have hc := hi.held.toCustody
  by_cases hfirst : w.rr.pc = .blockEnd
  · exact (firstScan_scans hc hfirst hlock hs).1
  · by_cases halgo : w.rr.pc = .algo
    · exact (algo_scans hc halgo hlock (hi.turn hs)).1
    · by_cases hlast : w.rr.pc = .last
      · exact (lastScan_scans hc hlast hlock hs).1
      · have hn : scanning w (.sched clk t) = 0 := by
          cases hpc : w.rr.pc <;> simp only [scanning, hpc]
          case blockEnd => exact absurd hpc hfirst
          case algo => exact absurd hpc halgo
          case last => exact absurd hpc hlast
        rw [hn]
        have ht := hi.turn hs
        exact ⟨by simp, fun _ => ht.blocked_stay hfirst halgo hlast, Or.inl rfl,
          ht.scans hfirst halgo hlast⟩

/-- **The calls that are counted are those that the guards make one expect.** -/
theorem Step.scans (hst : Step P e w w') (hi : Inv (fun _ => True) (fun _ => True) w)
    (hlock : Lockstep w e) : w'.rr.scans = w.rr.scans + scanning w e := by
  cases hst with
  | sched _ hs => exact (sched_scans hi hlock hs).count
  | child hs => obtain ⟨c, -, -, -, ⟨-, rfl⟩ | ⟨-, -, rfl⟩⟩ := childStep_cases hs <;> rfl
  | _ => rfl

/-- **The times in the block queue**, after `n` scans in this iteration: nobody has been
missed, and after a scan nobody is due any more. -/
structure Awake (w : World) (n : ℕ) : Prop where
  le : n ≤ 1
  before : w.rr.pc = .requests ∨ w.rr.pc = .blockEnd → n = 0
  flag : w.rr.pc.afterScan = true → n = calls w.rr.checked
  top : w.rr.pc = .top → (n = 1 ∧ w.rr.lastTick = w.rr.now) ∨
    (n = 0 ∧ w.rr.lastTick = -1 ∧ w.rr.blockQueue = [])
  due : w.rr.pc ≠ .top → ∀ p ∈ w.rr.blockQueue, ∀ x, w.rr.heap p = some x →
    w.rr.now ≤ x.unblockAt
  done : n = 1 → ∀ p ∈ w.rr.blockQueue, ∀ x, w.rr.heap p = some x → w.rr.now < x.unblockAt

theorem calls_le (b : Bool) : calls b ≤ 1 := by cases b <;> decide

theorem demandDelay_pos (RAM : Fin 32 → Frame) : 0 < demandDelay RAM := by
  rw [demandDelay]
  split
  · split_ifs <;> decide
  · decide

/-- Nobody is missed while the tick is the same. -/
theorem Awake.due_kept (h : Awake w n) (hst : Step P e w w')
    (hi : Inv (fun _ => True) (fun _ => True) w)
    (hg : Inv (Guarded fun _ _ _ _ => True) Paged w) (hC : Punctual w e) (htop : w.rr.pc ≠ .top)
    (hnow : w'.rr.now = w.rr.now) : ∀ p ∈ w'.rr.blockQueue, ∀ y, w'.rr.heap p = some y →
      w'.rr.now ≤ y.unblockAt := by
  intro p hp y hy
  rcases hst.sleeping hi hg hC hp hy with ⟨hB, x, hx, hu⟩ | ⟨-, -, hu⟩
  · have := h.due htop p hB x hx
    omega
  · have := demandDelay_pos w.rr.RAM
    omega

/-- After a scan, nobody is due. -/
theorem Awake.done_kept {k : ℕ} (h : Awake w n) (hst : Step P e w w')
    (hi : Inv (fun _ => True) (fun _ => True) w)
    (hg : Inv (Guarded fun _ _ _ _ => True) Paged w) (hC : Punctual w e)
    (hscan : Scans w w'.rr k) (hreq : w.rr.pc ≠ .requests) (hnow : w'.rr.now = w.rr.now)
    (hone : n + k = 1) : ∀ p ∈ w'.rr.blockQueue, ∀ y, w'.rr.heap p = some y →
      w'.rr.now < y.unblockAt := by
  intro p hp y hy
  rcases hst.sleeping hi hg hC hp hy with ⟨hB, x, hx, hu⟩ | ⟨-, hpc, -⟩
  · rcases hscan.calls with h0 | h1
    · have := h.done (by omega) p hB x hx
      omega
    · by_contra hle
      exact ((hscan.woke h1 p hB x hx).1 (by omega)).1 hp
  · exact absurd hpc hreq

/-- The phases from the first scan to the call of `RR_algo`. -/
theorem Awake.after (h : Awake w n) (hst : Step P (.sched clk t) w w')
    (hi : Inv (fun _ => True) (fun _ => True) w)
    (hg : Inv (Guarded fun _ _ _ _ => True) Paged w) (hC : Punctual w (.sched clk t))
    (hscan : Scans w w'.rr (scanning w (.sched clk t))) (htop : w.rr.pc ≠ .top)
    (hreq : w.rr.pc ≠ .requests) (hnow : w'.rr.now = w.rr.now) (hpc : w'.rr.pc.afterScan = true)
    (hcalls : calls w'.rr.checked = n + scanning w (.sched clk t)) :
    Awake w' (expecting w w' n (.sched clk t)) := by
  have hne : ∀ c : Pc, c.afterScan = false → w'.rr.pc ≠ c := by
    rintro c hc rfl
    exact nomatch hc.symm.trans hpc
  have hn : expecting w w' n (.sched clk t) = calls w'.rr.checked := by
    rw [expecting, if_neg (hne .requests rfl), hcalls]
  rw [hn]
  refine ⟨calls_le _, fun he => ?_, fun _ => rfl, fun he => absurd he (hne .top rfl),
    fun _ => h.due_kept hst hi hg hC htop hnow,
    fun hone => h.done_kept hst hi hg hC hscan hreq hnow (hcalls ▸ hone)⟩
  rcases he with he | he
  · exact absurd he (hne .requests rfl)
  · exact absurd he (hne .blockEnd rfl)

/-- **The end of the iteration**: if the block queue has not been scanned yet, the clock has
not moved, and it is scanned now. -/
theorem Awake.last (h : Awake w n) (hst : Step P (.sched clk t) w w')
    (hi : Inv (fun _ => True) (fun _ => True) w)
    (hg : Inv (Guarded fun _ _ _ _ => True) Paged w) (hC : Punctual w (.sched clk t))
    (htick : Ticking w) (hlast : w.rr.pc = .last)
    (hscan : Scans w w'.rr (scanning w (.sched clk t))) (hpc : w'.rr.pc = .top)
    (hnow : w'.rr.now = w.rr.now) (hlt : w'.rr.lastTick = w.rr.lastTick) :
    Awake w' (expecting w w' n (.sched clk t)) := by
  have hlock := hC.1
  rw [Lockstep, hlast] at hlock
  obtain ⟨hl, hclock⟩ := htick.last hlast
  have hflag := h.flag (by rw [hlast]; rfl)
  have hone : n + scanning w (.sched clk t) = 1 := by
    rw [hflag]
    simp only [scanning, hlast]
    cases hck : w.rr.checked with
    | true =>
      rw [if_neg (fun hc => absurd hc.1 (by simp))]
      rfl
    | false =>
      have hsame : clk .loopEnd = w.rr.now := by
        rcases hclock with hc | ⟨-, hc⟩
        · exact (hlock.1 _).trans hc
        · exact absurd (hck.symm.trans hc) (by simp)
      rw [if_pos ⟨rfl, hsame⟩]
      rfl
  have hne : ∀ c : Pc, c ≠ .top → w'.rr.pc ≠ c := fun c hc he => hc (he.symm.trans hpc)
  have hn : expecting w w' n (.sched clk t) = 1 := by
    rw [expecting, if_neg (hne .requests (by simp)), hone]
  rw [hn]
  refine ⟨le_rfl, fun he => ?_, fun he => ?_, fun _ => Or.inl ⟨rfl, ?_⟩, fun he => absurd hpc he,
    fun _ => h.done_kept hst hi hg hC hscan (by rw [hlast]; simp) hnow hone⟩
  · rcases he with he | he
    · exact absurd he (hne .requests (by simp))
    · exact absurd he (hne .blockEnd (by simp))
  · rw [hpc] at he
    cases he
  · rw [hlt, hnow, hl]

/-- The begin of an iteration. The tick is the next one, so nobody has been missed. -/
theorem Awake.top_step (h : Awake w n) (htick : Ticking w) (htop : w.rr.pc = .top)
    (hlock : Lockstep w (.sched clk t)) (ht : Turn (fun _ => True) P clk w.rr s) :
    Awake { w with rr := s, clock := t }
      (expecting w { w with rr := s, clock := t } n (.sched clk t)) := by
  have h0 : scanning w (.sched clk t) = 0 := by simp only [scanning, htop]
  have hsame : ∀ s' : RRState, s'.pc ≠ .requests →
      expecting w { w with rr := s', clock := t } n (.sched clk t) = n := fun s' hne => by
    rw [expecting, if_neg (show s'.pc ≠ .requests from hne), h0, Nat.add_zero]
  cases ht with
  | exit hpc hready hblock hrec hcur =>
    have hne : ({ w.rr with pc := .exited } : RRState).pc ≠ .requests := (by simp)
    rw [hsame _ hne]
    have hnone : ∀ {Q : Ptr → Prop}, ∀ p ∈ w.rr.blockQueue, Q p := by
      rw [hblock]
      exact List.forall_mem_nil _
    exact ⟨h.le, (by simp), (by rintro ⟨⟩), (by simp), fun _ => hnone, fun _ => hnone⟩
  | spin hpc =>
    rw [hsame _ (by simp [hpc])]
    exact ⟨h.le, h.before, h.flag, h.top, h.due, h.done⟩
  | tick hpc hnew =>
    have hn : expecting w { w with
        rr := { w.rr with now := clk .now, lastTick := clk .now, pc := .requests }, clock := t } n
        (.sched clk t) = 0 := if_pos rfl
    rw [hn]
    refine ⟨Nat.zero_le 1, fun _ => rfl, by rintro ⟨⟩, by simp, fun _ p hp x hx => ?_, by simp⟩
    show clk .now ≤ x.unblockAt
    have hp : p ∈ w.rr.blockQueue := hp
    rcases h.top hpc with ⟨hone, hl⟩ | ⟨-, -, hnil⟩
    · have hlt := h.done hone p hp x hx
      rw [Lockstep, hpc] at hlock
      have := htick.tick
      rcases hlock with ⟨hold, -⟩ | ⟨hnext, -⟩
      · exact absurd hold hnew
      · omega
    · rw [hnil] at hp
      cases hp
  | _ hpc => exact absurd (htop.symm.trans hpc) (by simp)

/-- The request of the tick is served. -/
theorem Awake.requests_step (h : Awake w n) (hst : Step P (.sched clk t) w w')
    (hi : Inv (fun _ => True) (fun _ => True) w)
    (hg : Inv (Guarded fun _ _ _ _ => True) Paged w) (hC : Punctual w (.sched clk t))
    (hreq : w.rr.pc = .requests) (hpc : w'.rr.pc = .blockEnd) (hnow : w'.rr.now = w.rr.now) :
    Awake w' (expecting w w' n (.sched clk t)) := by
  have h0 : scanning w (.sched clk t) = 0 := by simp only [scanning, hreq]
  have hne : ∀ c : Pc, c ≠ .blockEnd → w'.rr.pc ≠ c := fun c hc he => hc (he.symm.trans hpc)
  have hn : expecting w w' n (.sched clk t) = 0 := by
    rw [expecting, if_neg (hne .requests nofun), h0, h.before (Or.inl hreq)]
  rw [hn]
  refine ⟨Nat.zero_le 1, fun _ => rfl, fun he => ?_, fun he => absurd he (hne .top nofun),
    fun _ => h.due_kept hst hi hg hC (by rw [hreq]; exact nofun) hnow, nofun⟩
  rw [hpc] at he
  exact nomatch he

/-- **A step of the scheduler.** -/
theorem Awake.sched (h : Awake w n) (hclk : Readings clk w.clock t)
    (hi : Inv (fun _ => True) (fun _ => True) w)
    (hg : Inv (Guarded fun _ _ _ _ => True) Paged w) (htick : Ticking w)
    (hC : Punctual w (.sched clk t)) (hs : w.rr.phase P clk = .ok s) :
    Awake { w with rr := s, clock := t }
      (expecting w { w with rr := s, clock := t } n (.sched clk t)) := by
  have hst : Step P (.sched clk t) w { w with rr := s, clock := t } := .sched hclk hs
  have ht := hi.turn hs
  have hc := hi.held.toCustody
  have hscan := sched_scans hi hC.1 hs
  -- between the scans
  have hquiet : w.rr.pc.afterScan = true → w.rr.pc ≠ .algo → w.rr.pc ≠ .last →
      scanning w (.sched clk t) = 0 → Awake { w with rr := s, clock := t }
        (expecting w { w with rr := s, clock := t } n (.sched clk t)) := by
    intro hpc halgo hlast h0
    obtain ⟨hck, hnow, hpc'⟩ := ht.flagged hpc halgo hlast
    refine h.after hst hi hg hC hscan (fun he => ?_) (fun he => ?_) hnow hpc' ?_
    · exact absurd (he ▸ hpc) (by rintro ⟨⟩)
    · exact absurd (he ▸ hpc) (by rintro ⟨⟩)
    · rw [h0, Nat.add_zero, h.flag hpc, ← hck]
  cases hpc : w.rr.pc with
  | top => exact h.top_step htick hpc hC.1 ht
  | requests =>
    have hserved : s.pc = .blockEnd ∧ s.now = w.rr.now := by
      cases ht with
      | idle => exact ⟨rfl, rfl⟩
      | serve _ _ hserve =>
        obtain ⟨rq, mq, hf⟩ := fetched_eq clk w.rr
        rw [hf] at hserve
        cases hserve <;> exact ⟨rfl, rfl⟩
      | _ hpc' => exact absurd (hpc.symm.trans hpc') (by simp)
    exact h.requests_step hst hi hg hC hpc hserved.1 hserved.2
  | blockEnd =>
    obtain ⟨-, hpc', hnow, hcalls⟩ := firstScan_scans hc hpc hC.1 hs
    refine h.after hst hi hg hC hscan (by simp [hpc]) (by simp [hpc]) hnow
      (by rw [hpc']; rfl) ?_
    rw [h.before (Or.inr hpc), Nat.zero_add]
    exact hcalls
  | algo =>
    obtain ⟨-, hpc', hnow, hcalls⟩ := algo_scans hc hpc hC.1 ht
    refine h.after hst hi hg hC hscan (by simp [hpc]) (by simp [hpc]) hnow
      (by rw [hpc']; rfl) ?_
    rw [h.flag (by rw [hpc]; rfl)]
    exact hcalls
  | last =>
    obtain ⟨-, hpc', hnow⟩ := lastScan_scans hc hpc hC.1 hs
    have hlt : s.lastTick = w.rr.lastTick := by
      cases ht with
      | lastScan _ hu =>
        obtain ⟨m, u, b, n, -, -, rfl⟩ := hu
        rfl
      | _ hpc'' => exact absurd (hpc.symm.trans hpc'') (by simp)
    exact h.last hst hi hg hC htick hpc hscan hpc' hnow hlt
  | exited =>
    rw [phase, hpc] at hs
    cases hs
  | finish | reap | gate | receive =>
    refine hquiet (by rw [hpc]; rfl) (by simp [hpc]) (by simp [hpc]) ?_
    simp only [scanning, hpc]

/-- The other parties do not touch the block queue. -/
theorem Awake.of_eq (h : Awake w n) (hm : w'.rr.toMem = w.rr.toMem)
    (hb : w'.rr.blockQueue = w.rr.blockQueue) (hpc : w'.rr.pc = w.rr.pc)
    (hnow : w'.rr.now = w.rr.now) (hl : w'.rr.lastTick = w.rr.lastTick)
    (hck : w'.rr.checked = w.rr.checked) (he : scanning w e = 0) :
    Awake w' (expecting w w' n e) := by
  have hn : expecting w w' n e = n := by
    rw [expecting, hpc, he]
    split_ifs with hreq
    · exact (h.before (Or.inl hreq)).symm
    · rfl
  rw [hn]
  refine ⟨h.le, ?_, ?_, ?_, ?_, ?_⟩
  · rw [hpc]
    exact h.before
  · rw [hpc, hck]
    exact h.flag
  · rw [hpc, hl, hnow, hb]
    exact h.top
  · rw [hpc, hb, hm, hnow]
    exact h.due
  · rw [hb, hm, hnow]
    exact h.done

theorem wakeups_awake {a : Wakeups} (h : (wakeups P).Reachable a) : Awake a.world a.scans := by
  induction h with
  | @init a ha =>
    obtain ⟨⟨l, t, -, -, -, hw⟩, hn⟩ := ha
    rw [hw, hn]
    exact ⟨Nat.zero_le 1, fun _ => rfl, nofun, fun _ => Or.inr ⟨rfl, rfl, rfl⟩,
      (fun hne => absurd rfl hne), nofun⟩
  | @step a b ha hst ih =>
    obtain ⟨e, hst, hC, hn, -⟩ := hst
    have hr := wakeups_reachable ha
    have hi := reachable_inv (punctual_reachable hr)
    rw [hn, counting_eq (hst.scans hi hC.1)]
    generalize b.world = w' at hst
    cases hst with
    | sched hclk hs => exact ih.sched hclk hi (punctual_guarded hr) (punctual_ticking hr) hC hs
    | @child _ p s hs =>
      obtain ⟨-, -, hm⟩ := childStep_held hs hi.held
      obtain ⟨c, -, -, -, ⟨-, rfl⟩ | ⟨-, -, rfl⟩⟩ := childStep_cases hs
      · exact ih.of_eq hm rfl rfl rfl rfl rfl rfl
      · exact ih.of_eq hm rfl rfl rfl rfl rfl rfl
    | _ => exact ih.of_eq rfl rfl rfl rfl rfl rfl rfl

/-- A process that is blocked waits for the end of the delay of its fault. -/
theorem wakeups_asleep {a : Wakeups} (h : (wakeups P).Reachable a) : ∀ p ∈ a.world.rr.blockQueue,
    ∀ x, a.world.rr.heap p = some x → x.unblockAt = (a.fault p).1 + (a.fault p).2 := by
  induction h with
  | @init a ha =>
    obtain ⟨⟨l, t, -, -, -, hw⟩, -⟩ := ha
    rw [hw]
    exact List.forall_mem_nil _
  | @step a b ha hst ih =>
    obtain ⟨e, hst, hC, -, hf⟩ := hst
    have hr := wakeups_reachable ha
    intro p hp y hy
    rw [hf, faulting]
    rcases hst.sleeping (reachable_inv (punctual_reachable hr)) (punctual_guarded hr) hC hp hy with
      ⟨hB, x, hx, hu⟩ | ⟨hB, -, hu⟩
    · rw [if_neg fun hc => hc.2 hB, hu]
      exact ih p hB x hx
    · rw [if_pos ⟨hp, hB⟩, hu]

/-- **When the blocked processes wake up.** -/
structure Exact (P : Params) (a : Wakeups) : Prop where
  /-- One scan in each iteration. -/
  once : a.scans ≤ 1 ∧ (a.world.rr.pc = .top → a.world.rr.lastTick ≠ -1 → a.scans = 1)
  /-- At its end, nobody whose time has come is blocked. -/
  left : a.world.rr.pc = .top → ∀ p ∈ a.world.rr.blockQueue, ∀ x, a.world.rr.heap p = some x →
    a.world.rr.lastTick < x.unblockAt
  asleep : ∀ p ∈ a.world.rr.blockQueue, ∀ x, a.world.rr.heap p = some x →
    x.unblockAt = (a.fault p).1 + (a.fault p).2
  /-- Whoever leaves the block queue is ready, in the tick at which the delay is over. -/
  wakes : ∀ b, (wakeups P).step a b → ∀ p ∈ a.world.rr.blockQueue, p ∉ b.world.rr.blockQueue →
    p ∈ b.world.rr.readyQueue ∧ a.world.rr.now = (a.fault p).1 + (a.fault p).2

/-- **Blocked processes wake up in time**: in every run in lockstep with the clock, the block
queue is scanned once for each tick, and a process that faults at a tick is ready again in the
iteration that is later by the delay of the fault, neither earlier nor later. -/
theorem wakeups_exact {a : Wakeups} (h : (wakeups P).Reachable a) : Exact P a := by
  have hr := wakeups_reachable h
  have hi := reachable_inv (punctual_reachable hr)
  have haw := wakeups_awake h
  have hasleep := wakeups_asleep h
  refine ⟨⟨haw.le, fun htop hne => ?_⟩, fun htop p hp x hx => ?_, hasleep, ?_⟩
  · rcases haw.top htop with ⟨hone, -⟩ | ⟨-, hl, -⟩
    · exact hone
    · exact absurd hl hne
  · rcases haw.top htop with ⟨hone, hl⟩ | ⟨-, -, hnil⟩
    · rw [hl]
      exact haw.done hone p hp x hx
    · rw [hnil] at hp
      exact nomatch hp
  · rintro b ⟨e, hst, hC, -, -⟩ p hp hout
    obtain ⟨x, hx, -⟩ := hi.held.blocked p hp
    rw [← hasleep p hp x hx]
    generalize b.world = w' at hst hout
    cases hst with
    | @sched _ clk s t hclk hs =>
      have hscan := sched_scans hi hC.1 hs
      rcases hscan.calls with h0 | h1
      · exact absurd (hscan.kept h0 hp) hout
      · obtain ⟨hwoken, hstay⟩ := hscan.woke h1 p hp x hx
        have hle : x.unblockAt ≤ a.world.rr.now := by
          by_contra hlt
          exact hout (hstay (not_le.mp hlt))
        have htop : a.world.rr.pc ≠ .top := by
          intro htop
          simp only [scanning, htop, zero_ne_one] at h1
        exact ⟨(hwoken hle).2, le_antisymm (haw.due htop p hp x hx) hle⟩
    | @child _ q s hs =>
      obtain ⟨c, -, -, -, ⟨-, rfl⟩ | ⟨-, -, rfl⟩⟩ := childStep_cases hs
      · exact absurd hp hout
      · exact absurd hp hout
    | _ => exact absurd hp hout

theorem exists_wakeups (h : (systemIf P Paged Punctual).Reachable w) :
    ∃ a, (wakeups P).Reachable a ∧ a.world = w := by
  induction h with
  | @init w h => exact ⟨⟨w, 0, fun _ => (0, 0)⟩, .init ⟨h, rfl⟩, rfl⟩
  | @step w w' _ hst ih =>
    obtain ⟨e, hst, hC⟩ := hst
    obtain ⟨a, ha, rfl⟩ := ih
    exact ⟨⟨w', counting a.world w' a.scans, faulting a.world w' a.fault⟩,
      ha.step ⟨e, hst, hC, rfl, rfl⟩, rfl⟩

theorem punctual_of_small (h : (systemIf P Small Punctual).Reachable w) :
    (systemIf P Paged Punctual).Reachable w := by
  refine TransitionSystem.Reachable.map (S := systemIf P Small Punctual)
    (T := systemIf P Paged Punctual) (f := id) ?_ (fun w w' _ hst => Or.inl hst) h
  rintro w ⟨l, t, hl, hd, ht, he⟩
  exact ⟨l, t, hl, fun d hm => (hd d hm).1, ht, he⟩

/-- The process 1 has been blocked at tick 2; at the end of tick 12 it wakes up. -/
theorem wakeups_exact_woken : ∃ a b : Wakeups, (wakeups threeParams).step a b ∧
    a.world.rr.now = 12 ∧ a.world.rr.currProcess = some 1 ∧ a.world.rr.blockQueue = [0] ∧
    b.world.rr.blockQueue = [] ∧ b.world.rr.readyQueue = [0] ∧ (a.fault 0).1 + (a.fault 0).2 = 12 ∧
    Exact threeParams a := by
  have hrun : (playIf threeParams lockstepCheck (start threeAtOnce 1) asleepRun).map
      (fun w => (w.rr.now, w.rr.currProcess, w.rr.blockQueue)) = some (12, some 1, [0]) := by
    decide +kernel
  have hrun' : ((playIf threeParams lockstepCheck (start threeAtOnce 1) asleepRun).bind fun w =>
      playIf threeParams lockstepCheck w [.sched 12 12]).map
        (fun w => (w.rr.blockQueue, w.rr.readyQueue)) = some ([], [0]) := by
    decide +kernel
  obtain ⟨w, hw, he⟩ := Option.map_eq_some_iff.mp hrun
  simp only [Prod.mk.injEq] at he
  obtain ⟨hnow, hcur, hB⟩ := he
  rw [hw, Option.bind_some] at hrun'
  obtain ⟨w', hw', he'⟩ := Option.map_eq_some_iff.mp hrun'
  obtain ⟨hB', hready⟩ := Prod.mk.inj he'
  have hstart : (systemIf threeParams Small Punctual).Reachable (start threeAtOnce 1) :=
    .init ⟨_, 1, workload_threeAtOnce, by decide, by decide, rfl⟩
  have hpunctual : ∀ w mv, (systemIf threeParams Small Punctual).Reachable w →
      lockstepCheck w mv = true → Punctual w mv.event := fun w mv hr hc =>
    ⟨lockstep_of_check hc, lowPages_of_small (reachable_of_if hr) mv.event⟩
  have hreach := playIf_reachable hpunctual hstart hw
  obtain ⟨a, ha, rfl⟩ := exists_wakeups (punctual_of_small hreach)
  -- the last scan
  rw [playIf] at hw'
  split_ifs at hw' with hchk
  obtain ⟨w₁, hw₁, hw'⟩ := Option.bind_eq_some_iff.mp hw'
  obtain rfl := Option.some.inj hw'
  let b : Wakeups := ⟨w₁, counting a.world w₁ a.scans, faulting a.world w₁ a.fault⟩
  have hst : (wakeups threeParams).step a b :=
    ⟨_, play_step hw₁, hpunctual _ _ hreach hchk, rfl, rfl⟩
  have hexact := wakeups_exact ha
  obtain ⟨-, hwake⟩ := hexact.wakes b hst 0 (by rw [hB]; exact List.mem_singleton_self 0)
    (by show 0 ∉ w₁.rr.blockQueue; rw [hB']; exact List.not_mem_nil)
  exact ⟨a, b, hst, hnow, hcur, hB, hB', hready, hwake.symm.trans hnow, hexact⟩

end World

end CpuScheduler
