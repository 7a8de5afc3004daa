import KHypervisor.Drivers.Sun4iDma
import KHypervisor.System
import KHypervisor.Vdev.Vtimer
import KHypervisor.Vm.VirqMap

/-!
# The life cycle of virtual machines

`vm.c` and `vcpu.c`, the hand-over to a backup machine of `kmus.c`, and the two ways in which a
guest starts its secondary virtual processors. A number is given out once and stands for the
pointer to what it was given to; an access through the pointer to a machine or a virtual processor
that has been freed has no result. What else is freed with them, the timers and what `rr.c` keeps of
an entry, may still be linked to: `hvStep` has no next state where that matters.
-/

namespace KHypervisor

open Run

/-- `vcpu_type_t`. -/
inductive VcpuType
  | normal
  | kmus
deriving DecidableEq, Inhabited

/-- `vcpu_state_t`. -/
inductive VcpuState
  | undefined
  | defined
  | registered
  | activated
deriving DecidableEq, Inhabited

/-- `vmcb_type_t`. -/
inductive VmcbType
  | normal
  | kmus
deriving DecidableEq, Inhabited

def VmcbType.vcpuType : VmcbType → VcpuType
  | .normal => .normal
  | .kmus => .kmus

/-- The fields of `struct vcpu` that a switch does not look at. -/
structure VcpuLife where
  type : VcpuType
  state : VcpuState
  vtimer : VdevTimer
deriving Inhabited

/-- `struct vmcb` but for the memory. The array `vcpu` has `num_vcpus` pointers. -/
structure Vmcb where
  vcpu : List VcpuId
  type : VmcbType
  state : VmcbState
deriving Inhabited

/-- The configuration, with the number of list registers that the hardware has, and with which of
the calls of `malloc` for a `dma_wait` succeed. -/
structure HvConf where
  sched : SchedConf
  numLr : ℕ
  timer : TimerConf
  platform : Platform
  guest : GuestConf
  vcpuToPcpu : VcpuId → PcpuId
  vserial : Bool
  dmaMalloc : ℕ → Bool
  fuel : ℕ

/-- The state of the hypervisor. The virtual processors in `vcpu_list` and the machines in
`vm_list` are those that `sys` has. -/
structure Hypervisor (gPolicy : PcpuId → PolicyName) where
  sys : System gPolicy
  life : VcpuId → VcpuLife
  vmcb : VmId → Vmcb
  mem : PhysMem
  nrVcpus : ℕ
  vmCount : ℕ
  timers : Timers
  dma : Dma

namespace Hypervisor

variable {gPolicy : PcpuId → PolicyName}

def setVcpu (v : VcpuId) (vcpu : Vcpu) (H : Hypervisor gPolicy) : Hypervisor gPolicy :=
  { H with sys := { H.sys with vcpus := Function.update H.sys.vcpus v (some vcpu) } }

def setLife (v : VcpuId) (life : VcpuLife) (H : Hypervisor gPolicy) : Hypervisor gPolicy :=
  { H with life := Function.update H.life v life }

/-- An assignment to `vcpu->state`. -/
def setState (v : VcpuId) (state : VcpuState) (H : Hypervisor gPolicy) : Hypervisor gPolicy :=
  H.setLife v { H.life v with state := state }

def setVmem (vmid : VmId) (vmem : Vmem) (H : Hypervisor gPolicy) : Hypervisor gPolicy :=
  { H with sys := { H.sys with vms := Function.update H.sys.vms vmid (some vmem) } }

def setVmcb (vmid : VmId) (vm : Vmcb) (H : Hypervisor gPolicy) : Hypervisor gPolicy :=
  { H with vmcb := Function.update H.vmcb vmid vm }

/-- An assignment to `vm->state`. -/
def setVmState (vmid : VmId) (state : VmcbState) (H : Hypervisor gPolicy) : Hypervisor gPolicy :=
  H.setVmcb vmid { H.vmcb vmid with state := state }

/-- An assignment to the scheduler of processor `p`. -/
def setSched (p : PcpuId) (s : Scheduler (gPolicy p).EntryData (gPolicy p).SchedData)
    (H : Hypervisor gPolicy) : Hypervisor gPolicy :=
  { H with sys := H.sys.setSched p s }

/-- The state after processor `cpu` has made `m` of what it sees. -/
def setMachine (cpu : PcpuId) (m : Machine) (H : Hypervisor gPolicy) : Hypervisor gPolicy :=
  { H with sys := H.sys.setMachine cpu m }

/-- `get_current_vcpu`, if what it points to is there. -/
def currentVcpu (cpu : PcpuId) (H : Hypervisor gPolicy) : Option VcpuId :=
  (H.sys.sched cpu).currentVcpu.filter fun v => (H.sys.vcpus v).isSome

/-- `get_current_vm`, if what it points to is there. -/
def currentVm (cpu : PcpuId) (H : Hypervisor gPolicy) : Option VmId :=
  (H.sys.sched cpu).currentVm.filter fun vmid => (H.sys.vms vmid).isSome

variable (H : Hypervisor gPolicy)

theorem setVcpu_vcpus (v w : VcpuId) (vcpu : Vcpu) :
    (H.setVcpu v vcpu).sys.vcpus w = if w = v then some vcpu else H.sys.vcpus w :=
  Function.update_apply ..

theorem isSome_setVcpu (v : VcpuId) (vcpu : Vcpu) {w : VcpuId}
    (hw : (H.sys.vcpus w).isSome = true) : ((H.setVcpu v vcpu).sys.vcpus w).isSome = true := by
  rw [setVcpu_vcpus]
  split
  · rfl
  · exact hw

theorem setLife_life (v w : VcpuId) (life : VcpuLife) :
    (H.setLife v life).life w = if w = v then life else H.life w :=
  Function.update_apply ..

theorem setState_state (v w : VcpuId) (state : VcpuState) :
    ((H.setState v state).life w).state = if w = v then state else (H.life w).state := by
  rw [setState, setLife_life]
  split <;> rfl

theorem setState_type (v w : VcpuId) (state : VcpuState) :
    ((H.setState v state).life w).type = (H.life w).type := by
  rw [setState, setLife_life]
  split
  · rename_i hw
    rw [hw]
  · rfl

theorem setVmem_vms (m m' : VmId) (vmem : Vmem) :
    (H.setVmem m vmem).sys.vms m' = if m' = m then some vmem else H.sys.vms m' :=
  Function.update_apply ..

theorem setVmcb_vmcb (m m' : VmId) (vm : Vmcb) :
    (H.setVmcb m vm).vmcb m' = if m' = m then vm else H.vmcb m' :=
  Function.update_apply ..

theorem setMachine_hw (cpu : PcpuId) (m : Machine) :
    (H.setMachine cpu m).sys.hw cpu = ⟨m.regs, m.gich⟩ :=
  Function.update_self ..

theorem setSched_self (p : PcpuId) (s : Scheduler (gPolicy p).EntryData (gPolicy p).SchedData) :
    (H.setSched p s).sys.sched p = s :=
  Function.update_self ..

theorem setSched_of_ne {p q : PcpuId} (hq : q ≠ p)
    (s : Scheduler (gPolicy p).EntryData (gPolicy p).SchedData) :
    (H.setSched p s).sys.sched q = H.sys.sched q :=
  Function.update_of_ne hq ..

/-- What holds of the assigned scheduler and of all others holds of all. -/
theorem forall_setSched
    {P : (q : PcpuId) → Scheduler (gPolicy q).EntryData (gPolicy q).SchedData → Prop} {p : PcpuId}
    {s : Scheduler (gPolicy p).EntryData (gPolicy p).SchedData} (hself : P p s)
    (hothers : ∀ q, q ≠ p → P q (H.sys.sched q)) (q : PcpuId) :
    P q ((H.setSched p s).sys.sched q) := by
  by_cases hq : q = p
  · subst hq
    rwa [setSched_self]
  · rw [setSched_of_ne H hq]
    exact hothers q hq

end Hypervisor

open Hypervisor

variable {gPolicy : PcpuId → PolicyName}

/-! ## Virtual processors -/

/-- `vcpu_create`, on a block that `malloc` returned, with the pointer that it returns. -/
def vcpuCreate (type : VcpuType) (H : Hypervisor gPolicy) : Hypervisor gPolicy × VcpuId :=
  let v := H.nrVcpus
  let H := { H with nrVcpus := v + 1 }
  let H := H.setVcpu v { (default : Vcpu) with map := createMap }
  (H.setLife v { (default : VcpuLife) with state := .defined, type := type }, v)

/-- `vcpu_init` on processor `cpu`, where `syscounter` is what `timer_get_syscounter` answers. -/
def vcpuInit (conf : HvConf) (cpu : PcpuId) (syscounter : U64) (v : VcpuId)
    (H : Hypervisor gPolicy) : Option (Hypervisor gPolicy) := do
  let vcpu ← H.sys.vcpus v
  let regs := archRegsInit conf.guest (H.sys.hw cpu).regs
  let vmpidr := regs.cp15.vmpidr ||| BitVec.ofNat 32 vcpu.id
  let p := conf.vcpuToPcpu v
  let H := H.setVcpu v { vcpu with
    regs := { regs with cp15 := { regs.cp15 with vmpidr := vmpidr } }
    map := mapSerial conf.vserial vcpu.vmid vcpu.map
    pcpuid := p }
  let H := H.setSched p (schedVcpuRegister ((gPolicy p).policy conf.sched) v (H.sys.sched p))
  let H := H.setLife v { H.life v with
    state := .registered
    vtimer := initVdevTimer conf.timer syscounter (H.life v).vtimer }
  let timers ← tmRegisterTimer cpu (.vtimer v) H.timers
  some { H with timers := timers }

/-- `sched_vcpu_attach` on the scheduler of processor `p`. -/
def Hypervisor.attach (conf : HvConf) (v : VcpuId) (p : PcpuId) (H : Hypervisor gPolicy) :
    Hypervisor gPolicy :=
  H.setSched p (schedVcpuAttach ((gPolicy p).policy conf.sched) v p (H.sys.sched p)).1

/-- `vcpu_start`, which returns `VCPU_ACTIVATED` whatever it does. -/
def vcpuStart (conf : HvConf) (v : VcpuId) (H : Hypervisor gPolicy) :
    Option (Hypervisor gPolicy) := do
  let vcpu ← H.sys.vcpus v
  if vcpu.id = 0 ∧ (H.life v).type = .normal then
    some ((H.attach conf v (conf.vcpuToPcpu v)).setState v .activated)
  else some H

/-- `vcpu_suspend` on processor `cpu`, which returns `VCPU_REGISTERED`. -/
def vcpuSuspend (conf : HvConf) (cpu : PcpuId) (regs : Option CoreRegs) (v : VcpuId)
    (H : Hypervisor gPolicy) : Option (Hypervisor gPolicy) := do
  let H := H.setMachine cpu (← vcpuSave conf.numLr v regs (H.sys.machine cpu))
  let p := conf.vcpuToPcpu v
  let s ← schedVcpuDetach ((gPolicy p).policy conf.sched) (H.currentVcpu cpu) v (H.sys.sched p)
  some ((H.setSched p s).setState v .registered)

/-- `vcpu_delete`, which returns `VCPU_UNDEFINED`. -/
def vcpuDelete (conf : HvConf) (v : VcpuId) (H : Hypervisor gPolicy) :
    Option (Hypervisor gPolicy) := do
  let _ ← H.sys.vcpus v
  let p := conf.vcpuToPcpu v
  let H := H.setSched p (← schedVcpuUnregister v (H.sys.sched p))
  some { H with
    sys := { H.sys with vcpus := Function.update H.sys.vcpus v none }
    timers := H.timers.free (.vtimer v) }

/-- The loop of `vcpu_copy` over the list registers. -/
def copyLrs (numLr : ℕ) (src dst : ℕ → U32) : ℕ → U32 :=
  (List.range numLr).foldl (fun lr i => Function.update lr i (src i)) dst

/-- `vcpu_copy`. -/
def vcpuCopy (numLr : ℕ) (src dst : Vcpu) (regs : CoreRegs) : Vcpu :=
  let cp15 := { dst.regs.cp15 with vmpidr := src.regs.cp15.vmpidr }
  { dst with
    lr := copyLrs numLr src.lr dst.lr
    vmcr := src.vmcr
    regs := archRegsCopy src.regs { dst.regs with cp15 := cp15 } regs
    map := fun i => { dst.map i with
      enabled := (src.map i).enabled
      virq := (src.map i).virq
      pirq := (src.map i).pirq } }

/-! ## Virtual machines -/

/-- Which calls of `malloc` by `vm_create` succeed: that for the machine, that for the array of its
virtual processors, and those for the virtual processors. -/
structure VmAlloc where
  vm : Bool
  array : Bool
  vcpu : ℕ → Bool

/-- The loop of `vm_create` over the indices that are left, with the array if it comes to its
end. -/
def createVcpus (type : VmcbType) (vmid : VmId) (alloc : ℕ → Bool) :
    List ℕ → List VcpuId → Hypervisor gPolicy → Hypervisor gPolicy × Option (List VcpuId)
  | [], array, H => (H, some array)
  | i :: is, array, H =>
      if alloc i then
        let (H, v) := vcpuCreate type.vcpuType H
        let H := { H with sys := { H.sys with
          vcpus := Function.update H.sys.vcpus v
            ((H.sys.vcpus v).map fun vcpu => { vcpu with vmid := vmid, id := i }) } }
        createVcpus type vmid alloc is (array ++ [v]) H
      else (H, none)

/-- `vm_create`, with the number that it returns unless it fails. -/
def vmCreate (conf : HvConf) (numVcpus : U8) (type : VmcbType) (alloc : VmAlloc)
    (H : Hypervisor gPolicy) : Hypervisor gPolicy × Option VmId :=
  if alloc.vm then
    let vmid := H.vmCount
    let H := { H with vmCount := vmid + 1 }
    if alloc.array then
      match createVcpus type vmid alloc.vcpu (List.range numVcpus.toNat) [] H with
      | (H, some array) =>
          let (vmem, mem) := vmemCreate conf.platform default vmid H.mem
          let H := { H with mem := mem }.setVmem vmid vmem
          (H.setVmcb vmid ⟨array, type, .defined⟩, some vmid)
      | (H, none) => (H, none)
    else (H, none)
  else (H, none)

/-- The part of the loop of `vm_init` that is there if `CONFIG_OPTEE` is defined. -/
def enterAtPaStart (conf : HvConf) (vmid : VmId) (vcpu : Vcpu) : Vcpu :=
  let paStart := (conf.platform.vmConf vmid).paStart
  let gpr := Function.update vcpu.regs.coreRegs.gpr 2 paStart
  { vcpu with regs := { vcpu.regs with
    coreRegs := { vcpu.regs.coreRegs with gpr := gpr, pc := paStart } } }

/-- The body of the loop of `vm_init`. -/
def vmInitVcpu (conf : HvConf) (cpu : PcpuId) (syscounter : VcpuId → U64) (vmid : VmId)
    (H : Hypervisor gPolicy) (v : VcpuId) : Option (Hypervisor gPolicy) := do
  let H ← vcpuInit conf cpu (syscounter v) v H
  let vcpu ← H.sys.vcpus v
  some (if conf.platform.optee then H.setVcpu v (enterAtPaStart conf vmid vcpu) else H)

/-- `vm_init`, with the state that it returns. Here and below, the state that is returned is
missing where the source returns `VM_NOT_EXISTED`. -/
def vmInit (conf : HvConf) (cpu : PcpuId) (syscounter : VcpuId → U64) (vmid : VmId)
    (H : Hypervisor gPolicy) : Option (Hypervisor gPolicy × Option VmcbState) :=
  match H.sys.vms vmid with
  | none => some (H, none)
  | some vmem => do
      let H ← run (vmInitVcpu conf cpu syscounter vmid) H (H.vmcb vmid).vcpu
      let H := H.setVmState vmid .halted
      let (vmem, mem, regs) ← vmemInit conf.platform vmem vmid H.mem (H.sys.hw cpu).regs
      let H := { H with mem := mem }.setVmem vmid vmem
      some (H.setMachine cpu { H.sys.machine cpu with regs := regs }, some .halted)

/-- `vm_start`. -/
def vmStart (conf : HvConf) (vmid : VmId) (H : Hypervisor gPolicy) :
    Option (Hypervisor gPolicy × Option VmcbState) :=
  match H.sys.vms vmid with
  | none => some (H, none)
  | some _ => do
      let H ← run (fun H v => vcpuStart conf v H) H (H.vmcb vmid).vcpu
      some (H.setVmState vmid .running, some .running)

/-- `vm_suspend` on processor `cpu`. -/
def vmSuspend (conf : HvConf) (cpu : PcpuId) (vmid : VmId) (regs : Option CoreRegs)
    (H : Hypervisor gPolicy) : Option (Hypervisor gPolicy × Option VmcbState) :=
  match H.sys.vms vmid with
  | none => some (H, none)
  | some _ => do
      let H := H.setMachine cpu (vmSave vmid (H.sys.machine cpu))
      let H ← run (fun H v => vcpuSuspend conf cpu regs v H) H (H.vmcb vmid).vcpu
      some (H.setVmState vmid .halted, some .halted)

/-- `vm_delete`. -/
def vmDelete (conf : HvConf) (vmid : VmId) (H : Hypervisor gPolicy) :
    Option (Hypervisor gPolicy × Option VmcbState) :=
  match H.sys.vms vmid with
  | none => some (H, none)
  | some _ => do
      let H := { H with sys := { H.sys with vms := Function.update H.sys.vms vmid none } }
      let H ← run (fun H v => vcpuDelete conf v H) H (H.vmcb vmid).vcpu
      some (H, some .undefined)

/-- The loop of `vm_copy`, over the pointers of the two arrays that are left. There is no result
where it reads past the end of the second. -/
def copyVcpus (conf : HvConf) (regs : CoreRegs) :
    List VcpuId → List VcpuId → Hypervisor gPolicy → Option (Hypervisor gPolicy)
  | [], _, H => some H
  | _ :: _, [], _ => none
  | v :: vs, w :: ws, H => do
      let src ← H.sys.vcpus v
      let dst ← H.sys.vcpus w
      copyVcpus conf regs vs ws (H.setVcpu w (vcpuCopy conf.numLr src dst regs))

/-- `vm_copy`. -/
def vmCopy (conf : HvConf) (src dst : VmId) (regs : CoreRegs) (H : Hypervisor gPolicy) :
    Option (Hypervisor gPolicy) :=
  match H.sys.vms src, H.sys.vms dst with
  | some vmemSrc, some vmemDst => do
      let H ← copyVcpus conf regs (H.vmcb src).vcpu (H.vmcb dst).vcpu H
      let (vmem, dma) ← vmemCopy conf.dmaMalloc vmemSrc vmemDst H.dma
      let H := { H with dma := dma }.setVmem dst vmem
      some (H.setVmcb dst { H.vmcb dst with
        state := (H.vmcb src).state
        type := (H.vmcb src).type })
  | _, _ => some H

/-! ## The backup machine -/

/-- The body of the loop of `kmus_snapshot`. -/
def snapshotVcpu (conf : HvConf) (cpu : PcpuId) (regs : CoreRegs) (H : Hypervisor gPolicy)
    (v : VcpuId) : Option (Hypervisor gPolicy) :=
  (H.sys.vcpus v).map fun vcpu =>
    H.setVcpu v ((H.sys.machine cpu).saved conf.numLr (some regs) vcpu)

/-- `kmus_snapshot` on processor `cpu`. -/
def kmusSnapshot (conf : HvConf) (cpu : PcpuId) (normalId kmusId : VmId) (regs : CoreRegs)
    (H : Hypervisor gPolicy) : Option (Hypervisor gPolicy) := do
  let _ ← H.sys.vms normalId
  let H ← run (snapshotVcpu conf cpu regs) H (H.vmcb normalId).vcpu
  vmCopy conf normalId kmusId regs H

/-- The assignment `vm->vcpu[0]->type = VCPU_NORMAL` of `kmus_start`. -/
def makeNormal (kmusId : VmId) (H : Hypervisor gPolicy) : Option (Hypervisor gPolicy) := do
  let _ ← H.sys.vms kmusId
  let v ← (H.vmcb kmusId).vcpu.head?
  let _ ← H.sys.vcpus v
  some (H.setLife v { H.life v with type := .normal })

/-- `kmus_start` on processor `cpu`, up to the loop that waits for the next interrupt. -/
def kmusStart (conf : HvConf) (cpu : PcpuId) (normalId kmusId : VmId) (regs : Option CoreRegs)
    (H : Hypervisor gPolicy) : Option (Hypervisor gPolicy) := do
  let (H, _) ← vmSuspend conf cpu normalId regs H
  let H ← makeNormal kmusId H
  let (H, _) ← vmStart conf kmusId H
  let (H, _) ← vmDelete conf normalId H
  some H

/-! ## Secondary virtual processors -/

/-- What `emulate_psci_cpu_on` and a write to `SYS_FLAGSSET` do to a virtual processor. -/
def activate (conf : HvConf) (pc : U32) (H : Hypervisor gPolicy) (v : VcpuId) :
    Option (Hypervisor gPolicy) := do
  let vcpu ← H.sys.vcpus v
  let H := H.setVcpu v { vcpu with
    regs := { vcpu.regs with coreRegs := { vcpu.regs.coreRegs with pc := pc } } }
  some ((H.attach conf v vcpu.pcpuid).setState v .activated)

/-- `PSCI_RET_SUCCESS`. -/
def psciRetSuccess : ℤ := 0

/-- `PSCI_RET_INVALID_PARAMS`. -/
def psciRetInvalidParams : ℤ := -2

/-- `emulate_psci_cpu_on` on processor `cpu`, with the value that it returns. -/
def emulatePsciCpuOn (conf : HvConf) (cpu : PcpuId) (regs : CoreRegs) (H : Hypervisor gPolicy) :
    Option (Hypervisor gPolicy × ℤ) := do
  let vmid ← H.currentVm cpu
  match (H.vmcb vmid).vcpu[(regs.gpr 1).toNat]? with
  | none => some (H, psciRetInvalidParams)
  | some v => (activate conf (regs.gpr 2) H v).map fun H => (H, psciRetSuccess)

/-- The case `SYS_FLAGSSET` of `vsysreg_write_handler` on processor `cpu`, where `pc` is what the
guest writes. -/
def sysFlagsset (conf : HvConf) (cpu : PcpuId) (pc : U32) (H : Hypervisor gPolicy) :
    Option (Hypervisor gPolicy) := do
  let vmid ← H.currentVm cpu
  run (activate conf pc) H (H.vmcb vmid).vcpu.tail

end KHypervisor
