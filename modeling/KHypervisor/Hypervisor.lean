import KHypervisor.Vm.LifeCycle

/-!
# The hypervisor

The life cycle of the machines, the schedulers of all processors and the software timers together.
Any processor may call any of the functions at any time; what a run goes through is every order
of the calls.
-/

namespace KHypervisor

open Run Hypervisor

variable {gPolicy : PcpuId → PolicyName}

/-- A turn of the loop of `sched_start` on processor `cpu`, and what follows the loop if it is the
last. -/
def startTurn (conf : HvConf) (cpu : PcpuId) (now expiration : U64) (H : Hypervisor gPolicy) :
    Option (Hypervisor gPolicy) := do
  let (s, next, expiration) ←
    ((gPolicy cpu).policy conf.sched).doSchedule now expiration (H.sys.sched cpu)
  if next = vcpuidInvalid then some (H.setSched cpu s)
  else
    let timers ← tmRegisterTimer cpu (.sched cpu) H.timers
    let timers ← tmSetTimer conf.fuel conf.timer cpu (.sched cpu) expiration true timers
    let (σ, _) ← schedPerformSwitch conf.numLr cpu none (H.sys.setSched cpu (switchTo next s))
    some { H with sys := σ, timers := timers }

/-- `do_schedule` on processor `cpu`, with the expiration that it leaves. -/
def doScheduleTimer (conf : HvConf) (cpu : PcpuId) (now expiration : U64) (regs : Option CoreRegs)
    (H : Hypervisor gPolicy) : Option (U64 × Hypervisor gPolicy × Option CoreRegs) := do
  let (s, next, expiration) ←
    ((gPolicy cpu).policy conf.sched).doSchedule now expiration (H.sys.sched cpu)
  let (σ, regs) ← schedPerformSwitch conf.numLr cpu regs (H.sys.setSched cpu (switchTo next s))
  some (expiration, { H with sys := σ }, regs)

/-- `VTIMER_IRQ`. -/
def vtimerIrq : U32 := 30

/-- `virq_inject` on processor `cpu`, for a virtual processor that is there. -/
def Hypervisor.virqInject (conf : HvConf) (cpu : PcpuId) (v : VcpuId) (virq pirq : U32) (hw : U8)
    (H : Hypervisor gPolicy) : Option (Hypervisor gPolicy) :=
  (H.sys.vcpus v).map fun vcpu =>
    let running := decide ((H.sys.sched cpu).currentVcpuid = v)
    let (_, vcpu, gich) :=
      KHypervisor.virqInject conf.numLr running vcpu virq pirq hw (H.sys.hw cpu).gich
    (H.setVcpu v vcpu).setMachine cpu
      { (H.setVcpu v vcpu).sys.machine cpu with gich := gich }

/-- The callbacks of the software timers on processor `cpu`. The interrupt is taken with the trap
frame that is carried along, and `now` is what a callback reads the time as. -/
def timerCallback (conf : HvConf) (cpu : PcpuId) (now : TimerRef → U64) :
    TimerCallback (Hypervisor gPolicy × Option CoreRegs)
  | .vtimer v, expiration, (H, regs) => do
      let _ ← H.sys.vcpus v
      let (expiration, vtimer, forward) := vdevTimerHandler conf.timer expiration (H.life v).vtimer
      let H := H.setLife v { H.life v with vtimer := vtimer }
      (if forward then H.virqInject conf cpu v vtimerIrq vtimerIrq 0 else some H).map fun H =>
        (expiration, H, regs)
  | .sched p, expiration, (H, regs) => doScheduleTimer conf cpu (now (.sched p)) expiration regs H

/-- `timer_irq_handler` on processor `cpu`. -/
def Hypervisor.timerIrqHandler (conf : HvConf) (cpu : PcpuId) (count : U64) (now : TimerRef → U64)
    (regs : Option CoreRegs) (H : Hypervisor gPolicy) : Option (Hypervisor gPolicy) :=
  (KHypervisor.timerIrqHandler conf.fuel conf.timer cpu count (timerCallback conf cpu now)
    (H.timers, (H, regs))).map fun r => { r.2.1 with timers := r.1 }

/-- What an access to the virtual timer leaves of virtual processor `v`. -/
def Hypervisor.timerAccess {R : Type} (conf : HvConf) (cpu : PcpuId) (v : VcpuId)
    (access : VdevTimerAccess R) (H : Hypervisor gPolicy) : Option (Hypervisor gPolicy) := do
  let H := H.setLife v { H.life v with vtimer := access.v }
  match access.expiration with
  | none => some H
  | some expiration =>
      (tmSetTimer conf.fuel conf.timer cpu (.vtimer v) expiration true H.timers).map fun timers =>
        { H with timers := timers }

/-- The calls that the processors make, and the changes that a guest makes to its registers. The
first argument is the processor, where that matters. -/
inductive HvEvent
  | vmCreate (numVcpus : U8) (type : VmcbType) (alloc : VmAlloc)
  | vmInit (cpu : PcpuId) (syscounter : VcpuId → U64) (vmid : VmId)
  | vmStart (vmid : VmId)
  | vmSuspend (cpu : PcpuId) (vmid : VmId) (regs : Option CoreRegs)
  | vmDelete (vmid : VmId)
  | kmusSnapshot (cpu : PcpuId) (normalId kmusId : VmId) (regs : CoreRegs)
  | makeNormal (kmusId : VmId)
  | cpuOn (cpu : PcpuId) (regs : CoreRegs)
  | flagsset (cpu : PcpuId) (pc : U32)
  | schedStart (cpu : PcpuId) (now expiration : U64)
  | doSchedule (cpu : PcpuId) (regs : Option CoreRegs) (now expiration : U64)
  | timerIrq (cpu : PcpuId) (count : U64) (now : TimerRef → U64) (regs : Option CoreRegs)
  | timerAccess32 (cpu : PcpuId) (syscounter : U64) (read : Bool) (what rt : U32)
  | timerAccess64 (cpu : PcpuId) (syscounter : U64) (read : Bool) (what : U32) (rt : U32 × U32)
  | guest (cpu : PcpuId) (g : GuestState)

/-- One call. There is no result where the source follows a null pointer or that to a machine or a
virtual processor that has been freed, reads the links of a timer that has been, or never
returns. -/
def hvCall (conf : HvConf) (H : Hypervisor gPolicy) : HvEvent → Option (Hypervisor gPolicy)
  | .vmCreate numVcpus type alloc => some (vmCreate conf numVcpus type alloc H).1
  | .vmInit cpu syscounter vmid => (vmInit conf cpu syscounter vmid H).map Prod.fst
  | .vmStart vmid => (vmStart conf vmid H).map Prod.fst
  | .vmSuspend cpu vmid regs => (vmSuspend conf cpu vmid regs H).map Prod.fst
  | .vmDelete vmid => (vmDelete conf vmid H).map Prod.fst
  | .kmusSnapshot cpu normalId kmusId regs => kmusSnapshot conf cpu normalId kmusId regs H
  | .makeNormal kmusId => makeNormal kmusId H
  | .cpuOn cpu regs => (emulatePsciCpuOn conf cpu regs H).map Prod.fst
  | .flagsset cpu pc => sysFlagsset conf cpu pc H
  | .schedStart cpu now expiration => startTurn conf cpu now expiration H
  | .doSchedule cpu regs now expiration =>
      (doScheduleTimer conf cpu now expiration regs H).map fun r => r.2.1
  | .timerIrq cpu count now regs => H.timerIrqHandler conf cpu count now regs
  | .timerAccess32 cpu syscounter read what rt => do
      let v ← H.currentVcpu cpu
      H.timerAccess conf cpu v
        (vdevTimerAccess32 conf.timer syscounter read what rt (H.life v).vtimer)
  | .timerAccess64 cpu syscounter read what rt => do
      let v ← H.currentVcpu cpu
      H.timerAccess conf cpu v
        (vdevTimerAccess64 conf.timer syscounter read what rt (H.life v).vtimer)
  | .guest cpu g =>
      some (H.setMachine cpu ((H.sys.machine cpu).guestWrites conf.numLr g))

/-- No scheduler that somebody is mapped to has an entry in its run queue, or as the running one,
whose data its policy has freed. -/
def Hypervisor.sparesFreedEntries (conf : HvConf) (H : Hypervisor gPolicy) : Bool :=
  (List.range H.nrVcpus).all fun v =>
    !queuesFreed ((gPolicy (conf.vcpuToPcpu v)).policy conf.sched)
      (gPolicy (conf.vcpuToPcpu v)).refs (H.sys.sched (conf.vcpuToPcpu v))

/-- No timer of a virtual processor that has been freed has links: nothing has been written to where
they were. -/
def Hypervisor.sparesFreedTimers (H : Hypervisor gPolicy) : Bool :=
  (List.range H.nrVcpus).all fun v =>
    (H.sys.vcpus v).isSome || !H.timers.isLinked (.vtimer v)

/-- One call. Beyond `hvCall`, there is no next state from one in which a run queue leads to what
`rr.c` has freed, nor where a list operation writes to a timer that has been freed: the block may
have been handed out again by `malloc`. -/
def hvStep (conf : HvConf) (H : Hypervisor gPolicy) (e : HvEvent) : Option (Hypervisor gPolicy) :=
  if H.sparesFreedEntries conf then (hvCall conf H e).filter sparesFreedTimers else none

theorem hvStep_eq_some {conf : HvConf} {H H' : Hypervisor gPolicy} {e : HvEvent} :
    hvStep conf H e = some H' ↔ H.sparesFreedEntries conf = true ∧ hvCall conf H e = some H' ∧
      H'.sparesFreedTimers = true := by
  rw [hvStep, Option.ite_none_right_eq_some, Option.filter_eq_some_iff]

theorem hvCall_of_hvStep {conf : HvConf} {H H' : Hypervisor gPolicy} {e : HvEvent}
    (h : hvStep conf H e = some H') : hvCall conf H e = some H' :=
  (hvStep_eq_some.mp h).2.1

/-- What `kmus_start` does, call by call. -/
def kmusStartEvents (cpu : PcpuId) (normalId kmusId : VmId) (regs : Option CoreRegs) :
    List HvEvent :=
  [.vmSuspend cpu normalId regs, .makeNormal kmusId, .vmStart kmusId, .vmDelete normalId]

theorem kmusStart_eq (conf : HvConf) (cpu : PcpuId) (normalId kmusId : VmId)
    (regs : Option CoreRegs) (H : Hypervisor gPolicy) :
    kmusStart conf cpu normalId kmusId regs H =
      run (hvCall conf) H (kmusStartEvents cpu normalId kmusId regs) := by
  simp only [kmusStart, kmusStartEvents, run_cons, run_nil, hvCall, Option.bind_map,
    Option.bind_eq_bind, Function.comp_def]

/-- The memory and the data that nothing has been written to before the hypervisor starts. -/
structure Blank (gPolicy : PcpuId → PolicyName) where
  block : (p : PcpuId) → Scheduler (gPolicy p).EntryData (gPolicy p).SchedData
  hw : PcpuId → Hardware
  life : VcpuId → VcpuLife
  vmcb : VmId → Vmcb
  mem : PhysMem
  timer : TimerRef → Timer
  timerHw : PcpuId → TimerHw
  dmaReg : U32 → U32

/-- The state after `timemanager_init`, `sched_init` and `vm_setup`. -/
def Hypervisor.init (conf : HvConf) (blank : Blank gPolicy) : Hypervisor gPolicy where
  sys := System.init conf.sched blank.block blank.hw (fun _ => none) fun _ => none
  life := blank.life
  vmcb := blank.vmcb
  mem := blank.mem
  nrVcpus := 0
  vmCount := 0
  timers := Timers.init blank.timer blank.timerHw
  dma := bootDma blank.dmaReg

/-! ## A sample configuration -/

def sampleConf : HvConf where
  sched := default
  numLr := 4
  timer := ⟨10, false⟩
  platform := ⟨0, fun _ => [default], fun _ => ⟨1, 0, 0⟩, 0, false⟩
  guest := default
  vcpuToPcpu _ := 0
  vserial := false
  dmaMalloc _ := true
  fuel := 16

def sampleBlank : Blank fun _ => PolicyName.rr where
  block _ := default
  hw _ := default
  life _ := default
  vmcb _ := default
  mem := ⟨fun _ => 0, []⟩
  timer _ := default
  timerHw _ := default
  dmaReg _ := 0

/-- Every `malloc` succeeds. -/
def allAlloc : VmAlloc := ⟨true, true, fun _ => true⟩

/-- The hand-over to a backup machine: the machine is suspended, the backup is started and the
machine is deleted. -/
def handOver : List HvEvent :=
  [.vmCreate 1 .normal allAlloc, .vmCreate 1 .kmus allAlloc, .vmInit 0 (fun _ => 0) 0,
    .vmInit 0 (fun _ => 0) 1, .vmStart 0, .schedStart 0 0 0] ++
    kmusStartEvents 0 0 1 (some default)

end KHypervisor
