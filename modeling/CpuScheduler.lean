import CpuScheduler.Structs
import CpuScheduler.Address
import CpuScheduler.Lib.Fallible
import CpuScheduler.Lib.MsgQueue
import CpuScheduler.Lib.Runs
import CpuScheduler.Lib.Since
import CpuScheduler.Lib.Timeline
import CpuScheduler.Log
import CpuScheduler.Lib.Line
import CpuScheduler.Lib.StableInsert
import CpuScheduler.Lib.Halting
import CpuScheduler.Lib.Average
import CpuScheduler.Queue
import CpuScheduler.Mmu.Basic
import CpuScheduler.Mmu.Lookup
import CpuScheduler.Mmu.Placement
import CpuScheduler.Mmu.Effects
import CpuScheduler.Mmu.Faults
import CpuScheduler.Mmu.Upkeep
import CpuScheduler.Mmu.Consistency
import CpuScheduler.Mmu.Runs
import CpuScheduler.Mmu.FaultPaths
import CpuScheduler.Mmu.Frame
import CpuScheduler.Mmu.Ops
import CpuScheduler.Mmu.Laws
import CpuScheduler.Mmu.Allocation
import CpuScheduler.Mmu.Choice
import CpuScheduler.Mmu.InFlight
import CpuScheduler.Mmu.Bits
import CpuScheduler.Lib.Ledger
import CpuScheduler.Mmu.Ledger
import CpuScheduler.RR.Basic
import CpuScheduler.RR.System
import CpuScheduler.RR.Custody
import CpuScheduler.RR.Turns
import CpuScheduler.RR.Phases
import CpuScheduler.RR.Conservation
import CpuScheduler.RR.Bounds
import CpuScheduler.RR.Requests
import CpuScheduler.RR.Allocation
import CpuScheduler.RR.InFlight
import CpuScheduler.RR.Ledger
import CpuScheduler.RR.Signals
import CpuScheduler.RR.Mail
import CpuScheduler.RR.Clearing
import CpuScheduler.RR.Lockstep
import CpuScheduler.RR.Accounting
import CpuScheduler.Process.Text
import CpuScheduler.Process.RequestFile
import CpuScheduler.Process.Child
import CpuScheduler.Process.Lifecycle
import CpuScheduler.RR.Slices
import CpuScheduler.RR.Wakeups
import CpuScheduler.RR.Admission
import CpuScheduler.RR.Waiting
import CpuScheduler.RR.Progress
import CpuScheduler.RR.Timeline
import CpuScheduler.Dual.Basic
import CpuScheduler.Dual.System
import CpuScheduler.Dual.Moves
import CpuScheduler.Dual.Gate
import CpuScheduler.Dual.Dispatch
import CpuScheduler.Dual.Balance
import CpuScheduler.Dual.Stealing
import CpuScheduler.Hpf.Priority
import CpuScheduler.Dual.Routing
import CpuScheduler.Dual.Carried
import CpuScheduler.Dual.FirstArrival
import CpuScheduler.Dual.Exact
import CpuScheduler.Generator.Dispatch
import CpuScheduler.Generator.Reception
import CpuScheduler.Generator.InputFile
import CpuScheduler.Process.Lines
import CpuScheduler.Process.RequestFormat
import CpuScheduler.Hpf.System
import CpuScheduler.Hpf.Moves
import CpuScheduler.Hpf.Order
import CpuScheduler.Hpf.Custody
import CpuScheduler.Hpf.Accounting
import CpuScheduler.Hpf.Response
import CpuScheduler.Dual.Stalls
import CpuScheduler.Dual.Custody
import CpuScheduler.Dual.Termination
import CpuScheduler.RR.Statistics
import CpuScheduler.RR.Report
import CpuScheduler.Lib.LinkedList
import CpuScheduler.Queue.Nodes
import CpuScheduler.Queue.Cells
import CpuScheduler.Queue.Refinement
import CpuScheduler.Queue.Fifo
import CpuScheduler.RR.ReqHeap
import CpuScheduler.Generator.Heap
import CpuScheduler.Hpf.Timeline
import CpuScheduler.Dual.Timeline
