import Mathlib.Data.Int.Notation
import Mathlib.Data.Rat.Init
import Mathlib.Tactic.TypeStar

/-!
# The shared records

The C records of `data structs/structs.h`, field by field, and the constructors
that fill them: `createPCB` and `initialize_perf`. Everything here is plain data;
the functions that read it live with the component they belong to.

Three choices are made once and for all.

* An `int` or a `long` is an integer, and a flag that the program only ever sets to
  `0` or `1` (`valid`, `occupied`, `R`, `M`, `reserved`) is a `Bool`.
* A pointer to a PCB is the number of the allocation it came from
  (`CpuScheduler.Ptr`), so that two pointers are equal when they are the same
  pointer and a PCB that has been freed is never mistaken for a newer one.
* The `float` accumulators of `PerfVars` are rationals.

Fields that nothing reads – `PCB.next`, `Frame.data`, `PerfVars.std_WTA` – are left
out.
-/

namespace CpuScheduler

/-- A pointer to a PCB: the number of the `malloc` that returned it. -/
abbrev Ptr := ℕ

/-- What can go wrong, or not happen yet, inside a step. -/
inductive Fault
  /-- `dequeue` or `peek` on an empty queue, which calls `exit(1)`. -/
  | underflow
  /-- A page table indexed outside its `limit` entries, or a `char` array written past its
  end. -/
  | outOfBounds
  /-- `RAM` indexed outside its 32 frames. -/
  | badFrame
  /-- A null pointer followed. -/
  | nullDeref
  /-- A freed PCB, or a queue node that is not in use, read or written. -/
  | useAfterFree
  /-- A `malloc` that cannot be satisfied, which calls `exit(1)`. -/
  | mallocFailed
  /-- The call has not returned: an empty message queue, a child that is still
  running, a clock that has not moved. -/
  | blocked
deriving DecidableEq, Repr

/-- The state letter of a PCB: running, waiting, blocked, finished. -/
inductive ProcState
  | R | W | B | F
deriving DecidableEq, Repr

/-- `enum logState`. -/
inductive LogState
  | start | resume | stop | finish | stolen
deriving DecidableEq, Repr

/-- `processData`: a message of the process generator, and of the dual-CPU
queues. -/
structure ProcessData where
  mtype : ℤ
  id : ℤ
  arrival : ℤ
  runtime : ℤ
  priority : ℤ
  base : ℤ
  limit : ℤ
deriving DecidableEq, Repr

/-- `PCB`. -/
structure PCB where
  id : ℤ
  arrival : ℤ
  runtime : ℤ
  priority : ℤ
  remainingTime : ℤ
  waitingTime : ℤ
  startTime : ℤ
  finishTime : ℤ
  lastStopped : ℤ
  pid : ℤ
  state : ProcState
  lState : LogState
  frameIndex : ℤ
  base : ℤ
  limit : ℤ
  unblockAt : ℤ
  pendingPage : ℤ
  pendingFrame : ℤ
deriving DecidableEq, Repr

/-- `request`: one line of a request file, and the message a child makes of it. -/
structure Request where
  mtype : ℤ
  tick : ℤ
  address : List Char
  operation : Char
deriving DecidableEq, Repr

/-- `PTE`. -/
structure PTE where
  R : Bool
  M : Bool
  frameAddress : ℤ
  valid : Bool
deriving DecidableEq, Repr

/-- `Frame`. A `pte` that is not `NULL` makes the frame a page table. -/
structure Frame where
  R : Bool
  M : Bool
  processId : ℤ
  pte : Option (List PTE)
  occupied : Bool
  vpage : ℤ
  reserved : Bool
deriving DecidableEq, Repr

/-- `VirtualAddress`. -/
structure VirtualAddress where
  page : ℤ
  offset : ℤ
deriving DecidableEq, Repr

/-- `PerfVars`. -/
structure PerfVars where
  avgWTA : ℚ
  avgWaiting : ℚ
  m2WTA : ℚ
  welfordMeanWTA : ℚ
  totalRuntime : ℤ
  firstArrival : ℤ
  finishTime : ℤ
  numProcs : ℤ
deriving DecidableEq

/-- `createPCB` of the RR scheduler. The log state is not set there; it is written
before it is first read. -/
def createPCB (p : ProcessData) : PCB where
  id := p.id
  arrival := p.arrival
  runtime := p.runtime
  priority := p.priority
  startTime := -1
  finishTime := -1
  lastStopped := -1
  remainingTime := p.runtime
  waitingTime := 0
  state := .W
  lState := .start
  pid := -1
  limit := p.limit
  base := p.base
  frameIndex := -1
  unblockAt := -1
  pendingPage := -1
  pendingFrame := -1

/-- `initialize_perf`. -/
def initializePerf : PerfVars where
  avgWaiting := 0
  avgWTA := 0
  firstArrival := -1
  numProcs := 0
  totalRuntime := 0
  finishTime := -1
  m2WTA := 0
  welfordMeanWTA := 0

/-- The process of the examples: it has id 7 and arrives at tick 1. -/
def soleProcess (limit : ℤ) : ProcessData where
  mtype := 1
  id := 7
  arrival := 1
  runtime := 3
  priority := 0
  base := 0
  limit := limit

end CpuScheduler
