import Cs720.Lib.Loop
import Cs720.Alloc.Code
import Cs720.Alloc.Blocks
import Cs720.Alloc.Mark
import Cs720.Alloc.MarkRun
import Cs720.Alloc.Sweep
import Cs720.Alloc.SweepRun
import Cs720.Alloc.Allocate
import Cs720.Alloc.HeapRuns
import Cs720.Alloc.Safety
import Cs720.Alloc.Precision
import Cs720.Lib.Places
import Cs720.Lib.Tortoise
import Cs720.Threads.Code
import Cs720.Lib.Scheduler
import Cs720.Threads.Exec
import Cs720.Threads.Table
import Cs720.Threads.Deadlock
import Cs720.Threads.Calls
import Cs720.Threads.Perform
import Cs720.Threads.Preserve
import Cs720.Threads.Runs
import Cs720.Threads.Schedule
import Cs720.Lib.History
import Cs720.Threads.Blocked
import Cs720.Threads.Locks
import Cs720.Threads.Waits
import Cs720.Threads.Lifetime
import Cs720.Threads.Joins
import Cs720.Threads.Junk
import Cs720.Lib.Fifo
import Cs720.Threads.Fairness
import Cs720.Threads.Freed
import Cs720.Vm.Code
import Cs720.Vm.Listing
import Cs720.Vm.Decode
import Cs720.Vm.Agree
import Cs720.Vm.Local
import Cs720.Lib.Interleave
import Cs720.Vm.System
import Cs720.Vm.Commute
import Cs720.Lib.Bytes
import Cs720.Vm.Load
import Cs720.Vm.Stack
import Cs720.Vm.StackBounds
import Cs720.Vm.Fetch
import Cs720.Vm.Calls
import Cs720.Vm.SpinLock
import Cs720.Link.Code
import Cs720.Link.Object
import Cs720.Link.Extract
import Cs720.Link.Generate
import Cs720.Link.Relocate
import Cs720.Link.Linked
import Cs720.Link.Incremental
import Cs720.Vm.Executable
import Cs720.Link.RoundTrip
import Cs720.Vm.Loads
import Cs720.Vm.ParseCode
import Cs720.Vm.Disassembled
import Cs720.Link.Meaning
import Cs720.Link.Report
import Cs720.Vm.Scan
import Cs720.Lib.Chain
import Cs720.Alloc.Termination
import Cs720.Alloc.GetBlock
import Cs720.Alloc.Dump
import Cs720.Alloc.Coalesce
import Cs720.Alloc.Complete
import Cs720.Alloc.Finalizers
import Cs720.Alloc.Store
import Cs720.Vm.PushPop
import Cs720.Lib.Linked
import Cs720.Threads.Queue
import Cs720.Threads.QueueLife
import Cs720.Threads.ThreadTable
import Cs720.Threads.TableRuns
import Cs720.Threads.TableLife
import Cs720.Vm.Effects
import Cs720.Vm.Division
import Cs720.Lib.X86
import Cs720.Threads.Switch
import Cs720.Threads.SwitchRuns
import Cs720.Link.Symbols
import Cs720.Vm.Accepts
import Cs720.Lib.Fields
import Cs720.Elf.Code
import Cs720.Elf.Sections
import Cs720.Elf.Symbols
import Cs720.Lib.Atomicity
import Cs720.Vm.Locked
import Cs720.Vm.Atomic
import Cs720.Vm.SpinLockThreads
import Cs720.Lib.LostUpdate
import Cs720.Vm.NoLock
import Cs720.Lib.Rely
import Cs720.Vm.Rules
import Cs720.Vm.SumVector
import Cs720.Vm.GetPid
import Cs720.Lib.Fair
import Cs720.Vm.SpinLockFair
