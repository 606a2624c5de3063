import CpuScheduler.Address
import CpuScheduler.Queue
import Mathlib.Logic.Function.Basic

/-!
# The memory management unit

`MMU/mmu_functions.c`, function by function. The state it works on is
`CpuScheduler.Mem`: the frame table `RAM`, the PCBs the scheduler has allocated,
the queue `currentPCBs` and the pointer `currProcess` – the two places
`get_process` looks in – and the lines written to `memory.log`.

Every access the C code makes through an index or a pointer is checked here, and an
access that leaves its array stops the computation with a
`CpuScheduler.Fault`: a proof that a call succeeds is a proof that it stays in
bounds.

The clock can advance between two reads, so a function does not take *the* time but
a table of readings, one for each place that calls `getClk`
(`CpuScheduler.ClkSite`).
-/

namespace CpuScheduler

/-! ### Clock readings -/

/-- The calls of `getClk` whose value is used. -/
inductive ClkSite
  /-- `main`: the tick of the iteration, and the test before the last scan. -/
  | now | loopEnd
  /-- `handleRequests`, and the tests and time stamps of `checkReqs`. -/
  | reqTick | reqDue | reqLog | reqStopped | reqSwitch | reqSwitchAgain
  /-- `fault_handler`: the tentative and the final delay, and the log line. -/
  | faultTentative | faultDelay | faultLog
  /-- `swap`: the two reads of the delay, and the log line. -/
  | swapBase | swapDelay | swapLog
  /-- `checkBlockEnd`, at the `k`-th node: the test and the log line. -/
  | blockEnd (k : ℕ) | blockEndLog (k : ℕ)
  /-- `handleFinishedProcesses`. -/
  | finish
  /-- `receiveProcesses`. -/
  | receive
  /-- `RR_algo`: the two tests of the extension, the two tests of the preemption and
  the time stamps. -/
  | frontArrival | extendDue | extendNext | preemptDue | stopLog | stopped | switchUntil
  | nextPreemption
  /-- `wait_N_secs`: the start of the wait, and the read that ends it. -/
  | waitStart | waitEnd
  /-- `runProcess`. -/
  | start | startLog | resume | resumeLog
deriving DecidableEq, Repr

/-- The readings of one step. -/
abbrev Clk := ClkSite → ℤ

/-! ### The state -/

/-- A line of `memory.log`. -/
inductive MemLine
  | allocated (frame : ℤ)
  | pageFault (address : List Char) (pid : ℤ)
  | swappedOut (frame : ℤ)
  | loaded (time disk pid frame : ℤ)
deriving DecidableEq, Repr

/-- The state the memory functions work on. -/
structure Mem where
  /-- The frame table. -/
  RAM : Fin 32 → Frame
  /-- The allocated PCBs. -/
  heap : Ptr → Option PCB
  /-- The number of PCBs allocated so far: the next pointer. -/
  brk : Ptr
  /-- Every live PCB. -/
  currentPCBs : List Ptr
  /-- The running process. -/
  currProcess : Option Ptr
  /-- What has been written to `memory.log`. -/
  memoryLog : List MemLine

/-- A frame of the zero-initialized `RAM`. -/
def Frame.zero : Frame where
  R := false
  M := false
  processId := 0
  pte := none
  occupied := false
  vpage := 0
  reserved := false

/-- A frame as `freePageTable` leaves it. -/
def Frame.free : Frame where
  R := false
  M := false
  processId := -1
  pte := none
  occupied := false
  vpage := -1
  reserved := false

/-- An entry as `define_page_table` fills it and `swap` leaves the victim's. -/
def PTE.empty : PTE where
  R := false
  M := false
  frameAddress := -1
  valid := false

namespace Mem

/-- The state before the first process is received. -/
def init : Mem where
  RAM := fun _ => Frame.zero
  heap := fun _ => none
  brk := 0
  currentPCBs := []
  currProcess := none
  memoryLog := []

/-! ### Checked accesses -/

/-- Follow a PCB pointer. -/
def pcb (m : Mem) (p : Ptr) : Except Fault PCB :=
  match m.heap p with
  | some x => .ok x
  | none => .error .useAfterFree

/-- Write through a PCB pointer. -/
def setPcb (m : Mem) (p : Ptr) (g : PCB → PCB) : Except Fault Mem := do
  let x ← m.pcb p
  .ok { m with heap := Function.update m.heap p (some (g x)) }

/-- Write through a PCB pointer if a condition holds. -/
def setPcbIf (m : Mem) (c : Bool) (p : Ptr) (g : PCB → PCB) : Except Fault Mem :=
  if c then m.setPcb p g else .ok m

/-- Index the frame table. -/
def frameAt (i : ℤ) : Except Fault (Fin 32) :=
  if h : 0 ≤ i ∧ i < 32 then .ok ⟨i.toNat, by omega⟩ else .error .badFrame

/-- Write a frame. -/
def setFrame (m : Mem) (f : Fin 32) (g : Frame → Frame) : Mem :=
  { m with RAM := Function.update m.RAM f (g (m.RAM f)) }

/-- The page table a frame holds. -/
def tableAt (m : Mem) (f : Fin 32) : Except Fault (List PTE) :=
  match (m.RAM f).pte with
  | some pt => .ok pt
  | none => .error .nullDeref

/-- Index a page table. -/
def entryAt (pt : List PTE) (page : ℤ) : Except Fault PTE :=
  if h : 0 ≤ page ∧ page.toNat < pt.length then .ok (pt.get ⟨page.toNat, h.2⟩)
  else .error .outOfBounds

/-- Write `RAM[table].pte[page]`. -/
def writePte (m : Mem) (table page : ℤ) (g : PTE → PTE) : Except Fault Mem := do
  let f ← frameAt table
  let pt ← m.tableAt f
  let e ← entryAt pt page
  .ok (m.setFrame f fun fr => { fr with pte := some (pt.set page.toNat (g e)) })

/-- Write a line to `memory.log`. -/
def logLine (m : Mem) (l : MemLine) : Mem := { m with memoryLog := m.memoryLog ++ [l] }

/-- Write a line to `memory.log` if a condition holds. -/
def logIf (m : Mem) (c : Bool) (l : MemLine) : Mem := if c then m.logLine l else m

/-- The id a PCB pointer points to. -/
def idOf (m : Mem) (p : Ptr) : Except Fault ℤ := do
  let x ← m.pcb p
  .ok x.id

/-- The search through `currentPCBs`. -/
def findById (m : Mem) (id : ℤ) : List Ptr → Except Fault (Option Ptr)
  | [] => .ok none
  | p :: q => do
    let i ← m.idOf p
    if i = id then .ok (some p) else m.findById id q

/-- `get_process`. -/
def getProcess (m : Mem) (id : ℤ) : Except Fault (Option Ptr) := do
  match m.currProcess with
  | none => m.findById id m.currentPCBs
  | some p =>
    let i ← m.idOf p
    if i = id then .ok (some p) else m.findById id m.currentPCBs

/-- `page_fault_delay`. -/
def pageFaultDelay (m : Mem) (f : Fin 32) : ℤ := if (m.RAM f).M then 20 else 10

/-! ### `check` -/

/-- The results of `check`: `-1`, `1` and `0`. -/
inductive CheckResult
  | invalid | hit | miss
deriving DecidableEq, Repr

/-- `check`. -/
def check (m : Mem) (p : Ptr) (page : ℤ) (reqType : Char) : Except Fault (CheckResult × Mem) := do
  let x ← m.pcb p
  let f ← frameAt x.frameIndex
  if page > x.limit then .ok (.invalid, m)
  else do
    let pt ← m.tableAt f
    let e ← entryAt pt page
    if e.valid then do
      let m ← m.writePte x.frameIndex page fun e =>
        { e with R := true, M := e.M || reqType = 'w' }
      let g ← frameAt e.frameAddress
      .ok (.hit, m.setFrame g fun fr => { fr with R := true, M := fr.M || reqType = 'w' })
    else .ok (.miss, m)

/-! ### Loading a page -/

/-- `put_page_in_frame`. -/
def putPageInFrame (m : Mem) (pid page : ℤ) (f : Fin 32) (reqType : Char) :
    Except Fault Mem := do
  let m := m.logLine (.allocated f)
  match ← m.getProcess pid with
  | none => .ok m
  | some owner => do
    let o ← m.pcb owner
    if o.frameIndex < 0 then .ok m
    else
      let m := m.setFrame f fun fr =>
        { fr with
          occupied := true, processId := pid, pte := none, R := true, vpage := page,
          M := reqType = 'w' }
      m.writePte o.frameIndex page fun _ =>
        { M := reqType = 'w', valid := true, R := true, frameAddress := f }

/-- `define_page_table`. A negative `limit` makes `malloc` ask for almost the whole
address space. -/
def definePageTable (m : Mem) (pid : ℤ) (f : Fin 32) : Except Fault Mem := do
  let m := m.logLine (.allocated f)
  match ← m.getProcess pid with
  | none => .error .nullDeref
  | some owner => do
    let o ← m.pcb owner
    if o.limit < 0 then .error .mallocFailed
    else
      let m := m.setFrame f fun fr =>
        { fr with
          occupied := true, processId := pid, R := true, M := false, vpage := -1,
          pte := some (List.replicate o.limit.toNat PTE.empty) }
      m.setPcb owner fun o => { o with frameIndex := f }

/-- What `fault_handler` is asked to load: `type` 0, 1 and 2. -/
inductive FaultType
  /-- The page table of a process that starts. -/
  | pageTable
  /-- The page a running process asked for. -/
  | demand
  /-- Page 0 of a process that starts. -/
  | firstPage
deriving DecidableEq, Repr

/-- Whether a fault blocks its process: the test `type == 1 && page < 64`. -/
def blocks (type : FaultType) (page : ℤ) : Bool := type = .demand && page < 64

/-- The page `swap` loads: from 64 on, and unless it blocks the process, it subtracts 64. -/
def swapPage (type : FaultType) (page : ℤ) : ℤ :=
  if blocks type page then page else if page ≥ 64 then page - 64 else page

/-- The first half of `swap`: take the page out of its owner's page table. -/
def invalidate (m : Mem) (f : Fin 32) : Except Fault Mem := do
  match ← m.getProcess (m.RAM f).processId with
  | none => .ok m
  | some oldOwner => do
    let o ← m.pcb oldOwner
    if o.frameIndex ≥ 0 ∧ (m.RAM f).vpage ≥ 0 then
      m.writePte o.frameIndex (m.RAM f).vpage fun _ => PTE.empty
    else .ok m

/-- The second half of `swap`: load the page into the frame. -/
def replace (clk : Clk) (m : Mem) (blockEndTime id : ℤ) (owner : Ptr) (f : Fin 32) (page : ℤ)
    (type : FaultType) (reqType : Char) : Except Fault Mem := do
  let o ← m.pcb owner
  let m := m.logIf (type = .firstPage) (.loaded (clk .swapLog) (o.base + page) o.id f)
  let m ← m.setPcbIf (blocks type page) owner fun o =>
    { o with state := .B, unblockAt := blockEndTime }
  let page := swapPage type page
  let m ← m.writePte o.frameIndex page fun _ =>
    { valid := true, frameAddress := f, R := true, M := reqType = 'w' }
  let m := m.setFrame f fun fr =>
    { fr with
      M := reqType = 'w', processId := id, R := true, occupied := true, vpage := page,
      reserved := fr.reserved || type ≠ .firstPage }
  m.setPcbIf (type = .demand) owner fun o => { o with pendingPage := page, pendingFrame := f }

/-- `swap`. -/
def swap (clk : Clk) (m : Mem) (id : ℤ) (f : Fin 32) (page : ℤ) (type : FaultType)
    (reqType : Char) : Except Fault Mem := do
  let blockEndTime :=
    if page < 64 ∧ type ≠ .firstPage then clk .swapDelay + m.pageFaultDelay f
    else clk .swapBase
  let m ← m.invalidate f
  if type = .pageTable then m.definePageTable id f
  else
    let m := m.logIf ((m.RAM f).M ∧ type ≠ .firstPage) (.swappedOut f)
    match ← m.getProcess id with
    | none => .ok m
    | some owner => m.replace clk blockEndTime id owner f page type reqType

/-! ### `fault_handler` -/

/-- What the scan of `fault_handler` finds. -/
inductive ScanResult
  /-- The first frame that is not occupied. -/
  | free (f : Fin 32)
  /-- No free frame; the first frame of the lowest class. -/
  | victim (f : Fin 32)
  /-- No free frame, and every frame is a page table or reserved. -/
  | nothing
deriving DecidableEq, Repr

/-- The class of a frame: `2 * R + M`. -/
def frameClass (fr : Frame) : ℕ := 2 * fr.R.toNat + fr.M.toNat

/-- The loop of `fault_handler` over the frames, up to the first free one. -/
def scanFrom (RAM : Fin 32 → Frame) : List (Fin 32) → ℕ → Option (Fin 32) → ScanResult
  | [], _, none => .nothing
  | [], _, some v => .victim v
  | i :: is, cls, v =>
    if !(RAM i).occupied then .free i
    else if (RAM i).pte.isSome || (RAM i).reserved then scanFrom RAM is cls v
    else if frameClass (RAM i) < cls then scanFrom RAM is (frameClass (RAM i)) (some i)
    else scanFrom RAM is cls v

/-- The scan over all 32 frames. -/
def scan (RAM : Fin 32 → Frame) : ScanResult := scanFrom RAM (List.finRange 32) 4 none

/-- The first branch of `fault_handler`: block the owner of a demand fault. -/
def blockOwner (clk : Clk) (m : Mem) (owner : Option Ptr) (page : ℤ) (type : FaultType) :
    Except Fault Mem :=
  match owner with
  | none => .ok m
  | some p => m.setPcbIf (blocks type page) p fun o =>
      { o with
        state := .B, unblockAt := clk .faultTentative + 10, pendingPage := -1,
        pendingFrame := -1 }

/-- The delay of a page that goes to a free frame. -/
def delayOwner (clk : Clk) (m : Mem) (owner : Option Ptr) (page : ℤ) (i : Fin 32) :
    Except Fault Mem :=
  match owner with
  | none => .ok m
  | some p => m.setPcbIf (page < 64) p fun o =>
      { o with unblockAt := clk .faultDelay + m.pageFaultDelay i }

/-- The body of the scan at a free frame: what goes into the frame. -/
def fillFree (clk : Clk) (m : Mem) (owner : Option Ptr) (pid page : ℤ) (type : FaultType)
    (i : Fin 32) (reqType : Char) : Except Fault Mem :=
  match type with
  | .pageTable => m.definePageTable pid i
  | .demand => do
    let m := m.setFrame i fun fr => { fr with reserved := true }
    let m ← m.delayOwner clk owner page i
    m.putPageInFrame pid page i reqType
  | .firstPage => do
    let m ← m.delayOwner clk owner page i
    m.putPageInFrame pid page i reqType

/-- The body of the scan at a free frame. -/
def takeFree (clk : Clk) (m : Mem) (owner : Option Ptr) (pid page : ℤ) (type : FaultType)
    (i : Fin 32) (reqType : Char) : Except Fault Mem := do
  let m ← m.fillFree clk owner pid page type i reqType
  match owner with
  | none => .ok m
  | some p => do
    let m ← m.setPcbIf (type = .demand) p fun o => { o with pendingPage := page, pendingFrame := i }
    let o ← m.pcb p
    .ok (m.logIf (type = .firstPage) (.loaded (clk .faultLog) (o.base + page) o.id i))

/-- `fault_handler`. -/
def faultHandler (clk : Clk) (m : Mem) (pid page : ℤ) (type : FaultType)
    (rawAddress : List Char) (reqType : Char) : Except Fault Mem := do
  let owner ← m.getProcess pid
  let m ← m.blockOwner clk owner page type
  let m := m.logIf (type = .demand) (.pageFault rawAddress pid)
  match scan m.RAM with
  | .free i => m.takeFree clk owner pid page type i reqType
  | .victim v => m.swap clk pid v page type reqType
  | .nothing => .ok m

/-! ### Clearing and freeing -/

/-- The inner loop of `clear_recent`: clear the first `limit` entries of the table. -/
def clearTable (m : Mem) (i : Fin 32) (pt : List PTE) : Except Fault Mem := do
  match ← m.getProcess (m.RAM i).processId with
  | none => .error .nullDeref
  | some owner => do
    let o ← m.pcb owner
    if o.limit.toNat ≤ pt.length then
      .ok (m.setFrame i fun fr =>
        { fr with
          pte := some ((pt.take o.limit.toNat).map (fun e => { e with R := false }) ++
            pt.drop o.limit.toNat) })
    else .error .outOfBounds

/-- One pass of `clear_recent`. -/
def clearFrame (m : Mem) (i : Fin 32) : Except Fault Mem :=
  if (m.RAM i).occupied then
    let m := m.setFrame i fun fr => { fr with R := false }
    match (m.RAM i).pte with
    | none => .ok m
    | some pt => m.clearTable i pt
  else .ok m

/-- `clear_recent`. -/
def clearRecent (m : Mem) : Except Fault Mem := (List.finRange 32).foldlM clearFrame m

/-- `freeReserved`. -/
def freeReserved (m : Mem) (frameIndex : ℤ) : Except Fault Mem := do
  let f ← frameAt frameIndex
  .ok (m.setFrame f fun fr => { fr with reserved := false })

/-- `freePageTable`. -/
def freePageTable (m : Mem) (finished : PCB) : Except Fault Mem := do
  let f ← frameAt finished.frameIndex
  let m := m.setFrame f fun _ => Frame.free
  .ok { m with
    RAM := fun i => if (m.RAM i).processId = finished.id then Frame.free else m.RAM i }

/-! ### The callers in the scheduler -/

/-- `initialize_PCB`. -/
def initializePCB (clk : Clk) (m : Mem) (p : Ptr) : Except Fault Mem := do
  let x ← m.pcb p
  if x.frameIndex = -1 then do
    let m ← m.faultHandler clk x.id 0 .pageTable [] 'r'
    m.faultHandler clk x.id 0 .firstPage [] 'r'
  else .ok m

/-- The end of `handleFinishedProcesses`: the process leaves `currentPCBs`, gives back
its frames and is freed, and nothing is running. -/
def release (m : Mem) (p : Ptr) : Except Fault Mem := do
  let x ← m.pcb p
  let r ← Queue.dequeueById m.idOf x.id m.currentPCBs
  let m : Mem := { m with currentPCBs := (r.map Prod.snd).getD m.currentPCBs }
  let m ← m.freePageTable x
  .ok { m with heap := Function.update m.heap p none, currProcess := none }

end Mem

end CpuScheduler
