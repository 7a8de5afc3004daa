import KHypervisor.Lib.BitScan
import KHypervisor.Lib.ByteMemory
import KHypervisor.Lib.Cells
import KHypervisor.Lib.Lists
import KHypervisor.Lib.RadixTable
import KHypervisor.Lib.Run
import KHypervisor.Lib.Turns
import KHypervisor.Lib.Blocks
import KHypervisor.Lib.Scan
import KHypervisor.Lib.Slots
import KHypervisor.Lib.Stores
import KHypervisor.Lib.TimeDemand
import KHypervisor.Paging.Descriptor
import KHypervisor.Paging.Table
import KHypervisor.Paging.View
import KHypervisor.Paging.Walk
import KHypervisor.Paging.Mapping
import KHypervisor.Paging.Isolation
import KHypervisor.Paging.LastWriter
import KHypervisor.Paging.Footprint
import KHypervisor.Arch.Registers
import KHypervisor.Vm.Vmem
import KHypervisor.Vm.PageTables
import KHypervisor.Vm.Vcpu
import KHypervisor.Drivers.GicV2
import KHypervisor.Vm.ContextSwitch
import KHypervisor.Vm.VirqDelivery
import KHypervisor.Vm.StageTwo
import KHypervisor.Sched.Skeleton
import KHypervisor.Sched.RoundRobin
import KHypervisor.Sched.RealTime
import KHypervisor.Sched.Scheduler
import KHypervisor.Sched.Policy
import KHypervisor.Sched.AttachProtocol
import KHypervisor.Sched.RunQueue
import KHypervisor.Sched.RateMonotonic
import KHypervisor.Sched.RealTimeCall
import KHypervisor.Sched.RealTimeRuns
import KHypervisor.Sched.DeadlineMiss
import KHypervisor.Sched.Budgets
import KHypervisor.Sched.Dispatch
import KHypervisor.Sched.Rotation
import KHypervisor.Sched.RunningEntry
import KHypervisor.System
import KHypervisor.Vm.VirqMap
import KHypervisor.Vdev.Vgicd
import KHypervisor.Vdev.EnableLaw
import KHypervisor.Vdev.MapInverse
import KHypervisor.Vdev.PhysicalGicd
import KHypervisor.Vdev.SpiForwarding
import KHypervisor.Vdev.IrqOwnership
import KHypervisor.Vm.ListRegisters
import KHypervisor.Vdev.ArrayBounds
import KHypervisor.Lib.Links
import KHypervisor.Timer.Timers
import KHypervisor.Timer.Deadline
import KHypervisor.Vdev.Vtimer
import KHypervisor.Arch.OpteeShm
import KHypervisor.Arch.OpteeWaitQueue
import KHypervisor.Arch.OpteeTables
import KHypervisor.Arch.Traps
import KHypervisor.Arch.HypTrap
import KHypervisor.Lib.Exclusive
import KHypervisor.Arch.Mutex
import KHypervisor.Libc.Printf
import KHypervisor.Lib.LongDivision
import KHypervisor.Libc.Division
import KHypervisor.Vm.LifeCycle
import KHypervisor.Sched.Entries
import KHypervisor.Hypervisor
import KHypervisor.Vm.Moves
import KHypervisor.Vm.Identifiers
import KHypervisor.Vm.DanglingTimers
import KHypervisor.Vm.Ownership
import KHypervisor.Vm.References
import KHypervisor.Vm.Residence
import KHypervisor.Vm.GuestMemory
import KHypervisor.Vm.MemoryIsolation
import KHypervisor.Vm.Restart
import KHypervisor.Vm.Snapshot
import KHypervisor.Vm.TakeOver
import KHypervisor.Vdev.Instances
import KHypervisor.Vdev.Vuart
import KHypervisor.Lib.LinkedQueue
import KHypervisor.Drivers.Sun4iDma
import KHypervisor.Drivers.DmaCompletion
import KHypervisor.Vdev.TimerView
import KHypervisor.Vdev.TimerInterrupts
import KHypervisor.Lib.Scan
import KHypervisor.Sched.CurrentVcpu
import KHypervisor.Vdev.SgiDelivery
import KHypervisor.Vm.Completion
import KHypervisor.Vdev.GicdConfig
import KHypervisor.Timer.ListIntegrity
import KHypervisor.Timer.Service
import KHypervisor.Vdev.EarlyTimers
import KHypervisor.Vdev.TimerReads
import KHypervisor.Vm.CreateFailure
import KHypervisor.Vm.SecondaryStart
import KHypervisor.Lib.While
import KHypervisor.Paging.Termination
import KHypervisor.Arch.IrqTable
import KHypervisor.Lib.FreshBlock
import KHypervisor.Sched.Initialisation
import KHypervisor.Vdev.MmioDispatch
import KHypervisor.Arch.OpteeQuery
import KHypervisor.Lib.HeapQueue
import KHypervisor.Drivers.DmaQueue
import KHypervisor.Arch.Smccc
import KHypervisor.Lib.ByteStrings
import KHypervisor.Vm.Atags
import KHypervisor.Lib.Circle
import KHypervisor.Lib.Arena
import KHypervisor.Lib.Headers
import KHypervisor.Alloc.Malloc
import KHypervisor.Alloc.FreeList
import KHypervisor.Alloc.Refinement
import KHypervisor.Lib.Masks
import KHypervisor.Alloc.Growth
import KHypervisor.Alloc.Clients
import KHypervisor.Alloc.HeapRuns
import KHypervisor.Alloc.SelfCheck
import KHypervisor.Lib.Copying
import KHypervisor.Libc.Memory
