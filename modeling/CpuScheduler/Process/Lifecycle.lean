import CpuScheduler.Process.Child
import CpuScheduler.Process.RequestFile

/-!
# The life of a child

A child from `execl` to its end. Its scheduler makes an argument vector for it in
`runProcess`, of which there are three copies: those of `scheduler/scheduler_functions.c` and
`sub-sched/sub_scheduler_functions.c` pass the remaining time, the shared cell and the
semaphore, and the one of `rr_scheduler/rr_scheduler_functions.c` the id as well. The
program that is executed is the same one in all modes, built from `process/RR_process.c`. It
needs the id, and a request file.

A scheduler relies on `CpuScheduler.Contract`: one permit for each tick, and a `SIGUSR1` after the
last. The contract is kept in round robin mode, if the child has a request file that it can read,
and in no other case (`CpuScheduler.Mode.keeps_iff`): a child with too few arguments
raises `SIGUSR1` at once, and one without a file exits without it.
-/

namespace CpuScheduler

/-- What the program is run as: round robin, highest priority first, or first come first
served on two CPUs. -/
inductive Mode
  | rr | hpf | fcfs
deriving DecidableEq, Repr

/-- `snprintf` with `%d` into a `char[16]`. -/
def printArg (n : ℤ) : List Char := (showInt n).take 15

/-- The argument vector of `rr_scheduler/rr_scheduler_functions.c`. -/
def rrArgs (pcb : PCB) (shmRTId semId : ℤ) : List (List Char) :=
  ["process.out".toList, printArg pcb.remainingTime, printArg shmRTId, printArg semId,
    printArg pcb.id]

/-- The argument vector of `scheduler/scheduler_functions.c`, for the highest priority first. -/
def hpfArgs (pcb : PCB) (shmRTId semId : ℤ) : List (List Char) :=
  ["process.out".toList, printArg pcb.remainingTime, printArg shmRTId, printArg semId]

/-- The argument vector of `sub-sched/sub_scheduler_functions.c`. -/
def fcfsArgs (pcb : PCB) (shmRTId semId : ℤ) : List (List Char) :=
  ["process.out".toList, printArg pcb.remainingTime, printArg shmRTId, printArg semId]

/-- What `runProcess` makes of a process that has not been started. -/
def Mode.args : Mode → PCB → ℤ → ℤ → List (List Char)
  | .rr => rrArgs
  | .hpf => hpfArgs
  | .fcfs => fcfsArgs

/-- How the part of `main` in front of the loop ends: with `exit`, after some signals, or at
the loop. -/
inductive Startup
  | exits (signals : ℕ)
  | loops (c : Child)

/-- The request file. A child without one exits, and nobody is told. -/
def startRequests (dir : InputDir) (r id : ℤ) : Except Fault Startup :=
  match openRequests dir id with
  | none => .ok (.exits 0)
  | some content => do
    let reqs ← readRequests content
    .ok (.loops (Child.spawn id r reqs))

/-- The four calls of `to_int`. -/
def startArgs (dir : InputDir) (runtime shm sem id : List Char) : Except Fault Startup :=
  match toInt runtime with
  | none => .ok (.exits 1)
  | some r =>
    match toInt shm with
    | none => .ok (.exits 1)
    | some _ =>
      match toInt sem with
      | none => .ok (.exits 1)
      | some _ =>
        match toInt id with
        | none => .ok (.exits 1)
        | some id => startRequests dir r id

/-- `main` up to the loop. -/
def startup (dir : InputDir) : List (List Char) → Except Fault Startup
  | _ :: runtime :: shm :: sem :: id :: _ => startArgs dir runtime shm sem id
  | _ => .ok (.exits 1)

/-- `main`, for a child that has been given `n` permits. -/
def childMain (dir : InputDir) (argv : List (List Char)) (cell : ℤ) (n : ℕ) :
    Except Fault View := do
  match ← startup dir argv with
  | .exits signals =>
    .ok { taken := 0, cell := cell, sent := [], signals := signals, exited := true }
  | .loops c => .ok (Child.loop n c
      { taken := 0, cell := cell, sent := [], signals := 0, exited := false })

/-- **What a scheduler relies on**: with `n` permits, a child of runtime `r` has taken one for
each tick up to `r`, the shared cell is what remains, and there has been one `SIGUSR1` if `r`
permits have been given, and none before. -/
def Contract (r : ℤ) (run : ℕ → Except Fault View) : Prop :=
  ∀ n, ∃ v, run n = .ok v ∧ v.taken = min n r.toNat ∧ v.cell = r - v.taken ∧
    v.signals = (if r ≤ n then 1 else 0) ∧ v.exited = decide (r ≤ n)

/-- The contract is kept by the child that `runProcess` makes of a process. -/
def Mode.Keeps (mode : Mode) (dir : InputDir) (pcb : PCB) (shmRTId semId : ℤ) : Prop :=
  Contract pcb.remainingTime
    (childMain dir (mode.args pcb shmRTId semId) pcb.remainingTime)

/-! ### Arguments -/

/-- An `int` fits in the buffer. -/
theorem printArg_eq {n : ℤ} (h : IsInt n) : printArg n = showInt n := by
  obtain ⟨hlo, hhi⟩ := h
  have hdigits : (Nat.toDigits 10 n.natAbs).length ≤ 10 :=
    (Nat.length_toDigits_le_iff (by decide) (by decide)).mpr (by omega)
  refine List.take_of_length_le ?_
  rw [showInt]
  split_ifs
  · rw [List.length_cons]
    omega
  · omega

theorem toInt_printArg {n : ℤ} (h : IsInt n) : toInt (printArg n) = some n := by
  rw [printArg_eq h, toInt_showInt h]

variable {mode : Mode} {dir : InputDir} {pcb : PCB} {shmRTId semId : ℤ} {reqs : List Request}

/-- In round robin mode, the arguments are accepted. -/
theorem startup_rr (hr : IsInt pcb.remainingTime) (hid : IsInt pcb.id) (hshm : IsInt shmRTId)
    (hsem : IsInt semId) :
    startup dir (Mode.rr.args pcb shmRTId semId) =
      startRequests dir pcb.remainingTime pcb.id := by
  show startArgs dir _ _ _ _ = _
  simp only [startArgs, toInt_printArg hr, toInt_printArg hid, toInt_printArg hshm,
    toInt_printArg hsem]

/-- In the other modes there are too few of them. -/
theorem startup_short (h : mode ≠ .rr) :
    startup dir (mode.args pcb shmRTId semId) = .ok (.exits 1) := by
  cases mode with
  | rr => exact absurd rfl h
  | hpf => rfl
  | fcfs => rfl

theorem childMain_exits {argv : List (List Char)} {signals : ℕ} {cell : ℤ}
    (h : startup dir argv = .ok (.exits signals)) (n : ℕ) :
    childMain dir argv cell n = .ok
      { taken := 0, cell := cell, sent := [], signals := signals, exited := true } := by
  rw [childMain, h]
  rfl

theorem childMain_loops {argv : List (List Char)} {c : Child} {cell : ℤ}
    (h : startup dir argv = .ok (.loops c)) (n : ℕ) :
    childMain dir argv cell n = .ok (Child.loop n c
      { taken := 0, cell := cell, sent := [], signals := 0, exited := false }) := by
  rw [childMain, h]
  rfl

/-! ### The result -/

/-- A child that reaches its loop keeps the contract, whatever its requests are. -/
theorem Child.contract {id r : ℤ} (hr : 0 < r) :
    Contract r fun n => .ok (Child.loop n (Child.spawn id r reqs)
      { taken := 0, cell := r, sent := [], signals := 0, exited := false }) := by
  intro n
  have hcell : r = (r.toNat : ℤ) := by omega
  refine ⟨_, rfl, ?_⟩
  rw [Child.loop_eq n (k := r.toNat) (c := Child.spawn id r reqs) hcell hcell]
  have hle : r.toNat ≤ n ↔ r ≤ n := by omega
  simp only [hle, Nat.zero_add, Bool.false_or, true_and, and_true]
  omega

/-- One that exits in front of it does not: it has exited before the first permit. -/
theorem not_contract_exits {r : ℤ} (hr : 0 < r) {run : ℕ → Except Fault View} {v : View}
    (hrun : run 0 = .ok v) (hexited : v.exited = true) : ¬Contract r run := by
  intro h
  obtain ⟨w, hw, -, -, -, hrunning⟩ := h 0
  have hlt : ¬ r ≤ (0 : ℕ) := by omega
  obtain rfl := Except.ok.inj (hrun.symm.trans hw)
  rw [decide_eq_false hlt, hexited] at hrunning
  exact nomatch hrunning

/-- **When a child keeps the contract**: in round robin mode, if it has a request file, and
no address in it overflows the buffer. -/
theorem Mode.keeps_iff (hr : 0 < pcb.remainingTime) (hrun : IsInt pcb.remainingTime)
    (hid : IsInt pcb.id) (hshm : IsInt shmRTId) (hsem : IsInt semId) :
    mode.Keeps dir pcb shmRTId semId ↔ mode = .rr ∧
      ∃ content, openRequests dir pcb.id = some content ∧
        ∃ reqs, readRequests content = .ok reqs := by
  by_cases hmode : mode = .rr
  · have hstart : startup dir (Mode.rr.args pcb shmRTId semId) =
        startRequests dir pcb.remainingTime pcb.id := startup_rr hrun hid hshm hsem
    rw [← hmode, startRequests] at hstart
    cases hopen : openRequests dir pcb.id with
    | none =>
      rw [hopen] at hstart
      refine iff_of_false (not_contract_exits hr (childMain_exits hstart 0) rfl) ?_
      rintro ⟨-, content, h, -⟩
      exact nomatch h
    | some content =>
      rw [hopen] at hstart
      cases hread : readRequests content with
      | error e =>
        simp only [hread] at hstart
        refine iff_of_false (fun h => ?_) ?_
        · obtain ⟨v, hv, -⟩ := h 0
          rw [childMain, hstart] at hv
          exact nomatch hv
        · rintro ⟨-, content', h, reqs, hreqs⟩
          rw [← Option.some.inj h, hread] at hreqs
          exact nomatch hreqs
      | ok reqs =>
        simp only [hread] at hstart
        refine iff_of_true ?_ ⟨hmode, content, rfl, reqs, hread⟩
        rw [Mode.Keeps, funext (childMain_loops hstart)]
        exact Child.contract hr
  · -- the child sees too few arguments
    exact iff_of_false (not_contract_exits hr (childMain_exits (startup_short hmode) 0) rfl)
      fun h => hmode h.1

/-- A process of the generator, with the id 1 and a runtime of 3. -/
def threeTicks : PCB := createPCB
  { mtype := 1, id := 1, arrival := 0, priority := 0, runtime := 3, base := 0, limit := 2 }

/-- A round robin child with one request. -/
theorem Mode.keeps_iff_threeTicks :
    Mode.rr.Keeps (fun path => if path = requestPathNested 1 then some "0 16 r".toList else none)
      threeTicks 5 9 :=
  (Mode.keeps_iff (by decide) (by decide) (by decide) (by decide) (by decide)).mpr
    ⟨rfl, "0 16 r".toList, by decide +kernel, [⟨1, 0, "16".toList, 'r'⟩], by decide +kernel⟩

/-- **In the other two modes** the same child raises `SIGUSR1` before its first permit. -/
theorem Mode.not_keeps_hpf :
    ¬∀ (mode : Mode) (dir : InputDir) (pcb : PCB) (shmRTId semId : ℤ), 0 < pcb.remainingTime →
      IsInt pcb.remainingTime → IsInt pcb.id → IsInt shmRTId → IsInt semId →
      mode.Keeps dir pcb shmRTId semId := fun h =>
  not_contract_exits (by decide) (childMain_exits (startup_short (by decide)) 0) rfl
    (h .hpf (fun _ => none) threeTicks 5 9 (by decide) (by decide) (by decide) (by decide)
      (by decide))

/-! ### In the system of the scheduler -/

/-- The request files of the parameters are those of a directory. -/
def Params.FilesOf (P : Params) (dir : InputDir) : Prop :=
  ∀ id, ∃ content, openRequests dir id = some content ∧
    readRequests content = .ok (P.requestFile id)

/-- **The child that `runProcess` adds to the system** is the one that `main` has in front of its
loop. -/
theorem Params.FilesOf.startup {P : Params} (h : P.FilesOf dir) (hr : IsInt pcb.remainingTime)
    (hid : IsInt pcb.id) (hshm : IsInt shmRTId) (hsem : IsInt semId) :
    startup dir (Mode.rr.args pcb shmRTId semId) =
      .ok (.loops (Child.spawn pcb.id pcb.remainingTime (P.requestFile pcb.id))) := by
  obtain ⟨content, hopen, hread⟩ := h pcb.id
  rw [startup_rr hr hid hshm hsem, startRequests, hopen]
  simp only [hread]
  rfl

theorem RRState.startProcess_spawn (P : Params) (clk : Clk) (s : RRState) (p : Ptr) :
    s.startProcess P clk p = (do
      let s ← s.onMem (s.initializePCB clk p)
      let s ← s.update p fun x => { x with lState := .start }
      let s ← s.logData (clk .startLog) p
      let x ← s.pcb p
      let c := Child.spawn x.id x.remainingTime (P.requestFile x.id)
      let s := { s with child := Function.update s.child p (some c) }
      s.update p fun x => { x with pid := (p : ℤ) + 1 }) := rfl

end CpuScheduler
