import KHypervisor.Arch.Registers

/-!
# Virtual processors

What a virtual processor keeps while it is not running: its registers, the list registers and
`VMCR` of the virtual interface, and a queue of interrupts that found no list register.
-/

namespace KHypervisor

/-- `struct virq_table`. -/
structure VirqTable where
  enabled : U32
  virq : U32
  pirq : U32
deriving Inhabited

/-- `vmcb_state_t`. -/
inductive VmcbState
  | undefined
  | defined
  | halted
  | running
  | suspended
deriving DecidableEq, Inhabited

/-- The fields of `struct vcpu` that outlive a switch. Its number `vcpuid` is the one that
`vcpu_find` knows it by. The arrays `pending_irqs` and `lr` are functions of the index, which the
loops over them keep within `VIRQ_MAX_ENTRIES` and the number of list registers. -/
structure Vcpu where
  id : VcpuId
  pcpuid : PcpuId
  vmid : VmId
  regs : ArchRegs
  pendingIrqs : ℕ → U32
  lr : ℕ → U32
  vmcr : U32
  map : Fin 1024 → VirqTable
deriving Inhabited

end KHypervisor
