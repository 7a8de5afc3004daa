import KHypervisor.Sched.Policy
import KHypervisor.Vm.StageTwo

/-!
# The whole machine

Several processors, each with a scheduler and registers of its own, over one set of virtual
processors and machines. The steps are those of the scheduler on any processor, in any order, and
the guests may change their own registers in between.

Whatever the steps, a processor's stage-2 registers are those of the machine that its
`current_vcpu` belongs to: `stageTwo_of_current`.
-/

namespace KHypervisor

open Run Scheduler

structure Hardware where
  regs : Registers
  gich : Gich
deriving Inhabited

/-- The state of the hypervisor, with the policies that `schedconf_g_policy` assigns. -/
structure System (gPolicy : PcpuId → PolicyName) where
  sched : (p : PcpuId) → Scheduler (gPolicy p).EntryData (gPolicy p).SchedData
  hw : PcpuId → Hardware
  vcpus : VcpuId → Option Vcpu
  vms : VmId → Option Vmem

namespace System

variable {gPolicy : PcpuId → PolicyName}

/-- What processor `cpu` sees. -/
def machine (σ : System gPolicy) (cpu : PcpuId) : Machine :=
  ⟨(σ.hw cpu).regs, (σ.hw cpu).gich, σ.vcpus, σ.vms⟩

/-- The state after processor `cpu` has made `m` of what it sees. -/
def setMachine (σ : System gPolicy) (cpu : PcpuId) (m : Machine) : System gPolicy :=
  { σ with
    hw := Function.update σ.hw cpu ⟨m.regs, m.gich⟩
    vcpus := m.vcpus
    vms := m.vms }

/-- An assignment to the scheduler of processor `p`. -/
def setSched (σ : System gPolicy) (p : PcpuId)
    (s : Scheduler (gPolicy p).EntryData (gPolicy p).SchedData) : System gPolicy :=
  { σ with sched := Function.update σ.sched p s }

def vmidOf (σ : System gPolicy) (v : VcpuId) : Option VmId := (σ.vcpus v).map Vcpu.vmid

end System

/-- `sched_perform_switch` on processor `cpu`, with the trap frame after it. -/
def schedPerformSwitch {gPolicy : PcpuId → PolicyName} (numLr : ℕ) (cpu : PcpuId)
    (regs : Option CoreRegs) (σ : System gPolicy) :
    Option (System gPolicy × Option CoreRegs) := do
  let (s, switch) ← prepareSwitch σ.vmidOf (σ.sched cpu)
  let σ := σ.setSched cpu s
  match switch with
  | none => some (σ, regs)
  | some (previous, next) =>
      let (m, regs) ← doContextSwitch numLr previous next regs (σ.machine cpu)
      some (σ.setMachine cpu m, regs)

/-- `do_schedule` on processor `cpu`. -/
def doSchedule {gPolicy : PcpuId → PolicyName} (conf : SchedConf) (numLr : ℕ) (cpu : PcpuId)
    (pdata : Option CoreRegs) (now expiration : U64) (σ : System gPolicy) :
    Option (System gPolicy × Option CoreRegs) := do
  let (s, next, _) ← ((gPolicy cpu).policy conf).doSchedule now expiration (σ.sched cpu)
  schedPerformSwitch numLr cpu pdata (σ.setSched cpu (switchTo next s))

/-- A turn of the loop of `sched_start` on processor `cpu`, and what follows the loop if it is the
last. The loop is left for a guest, or taken again as long as nobody can be scheduled. -/
def schedStart {gPolicy : PcpuId → PolicyName} (conf : SchedConf) (numLr : ℕ) (cpu : PcpuId)
    (now expiration : U64) (σ : System gPolicy) : Option (System gPolicy) := do
  let (s, next, _) ← ((gPolicy cpu).policy conf).doSchedule now expiration (σ.sched cpu)
  if next = vcpuidInvalid then some (σ.setSched cpu s)
  else (schedPerformSwitch numLr cpu none (σ.setSched cpu (switchTo next s))).map Prod.fst

/-- The operations on the schedulers, with the processors that execute them, and the changes that
a guest makes to its registers. -/
inductive SystemEvent
  | register (vcpuid : VcpuId) (pcpu : PcpuId)
  | attach (vcpuid : VcpuId) (pcpu : PcpuId)
  | detach (cpu : PcpuId) (vcpuid : VcpuId) (pcpu : PcpuId)
  | start (cpu : PcpuId) (now expiration : U64)
  | schedule (cpu : PcpuId) (regs : Option CoreRegs) (now expiration : U64)
  | performSwitch (cpu : PcpuId) (regs : Option CoreRegs)
  | guest (cpu : PcpuId) (g : GuestState)

variable {gPolicy : PcpuId → PolicyName} {conf : SchedConf} {numLr : ℕ}

def systemStep (conf : SchedConf) (numLr : ℕ) (σ : System gPolicy) :
    SystemEvent → Option (System gPolicy)
  | .register v p => some (σ.setSched p (schedVcpuRegister ((gPolicy p).policy conf) v (σ.sched p)))
  | .attach v p =>
      some (σ.setSched p (schedVcpuAttach ((gPolicy p).policy conf) v p (σ.sched p)).1)
  | .detach cpu v p =>
      (schedVcpuDetach ((gPolicy p).policy conf) (σ.sched cpu).currentVcpu v (σ.sched p)).map
        (σ.setSched p)
  | .start cpu now expiration => schedStart conf numLr cpu now expiration σ
  | .schedule cpu regs now expiration =>
      (doSchedule conf numLr cpu regs now expiration σ).map Prod.fst
  | .performSwitch cpu regs => (schedPerformSwitch numLr cpu regs σ).map Prod.fst
  | .guest cpu g => some (σ.setMachine cpu ((σ.machine cpu).guestWrites numLr g))

/-- The state after `sched_init`, over any blocks that `malloc` returned. -/
def System.init (conf : SchedConf)
    (block : (p : PcpuId) → Scheduler (gPolicy p).EntryData (gPolicy p).SchedData)
    (hw : PcpuId → Hardware) (vcpus : VcpuId → Option Vcpu) (vms : VmId → Option Vmem) :
    System gPolicy :=
  ⟨fun p => schedInit ((gPolicy p).policy conf) p (block p), hw, vcpus, vms⟩

/-! ## The current virtual processor -/

/-- What `sched_perform_switch` relies on when it switches from the current virtual processor:
the number is that of `current_vcpu` unless it is invalid, and the stage-2 registers are those of
the machine of `current_vcpu`. -/
structure CurrentInv (σ : System gPolicy) (p : PcpuId) : Prop where
  current : (σ.sched p).currentVcpuid ≠ vcpuidInvalid →
    (σ.sched p).currentVcpu = some (σ.sched p).currentVcpuid
  onVm : ∀ v, (σ.sched p).currentVcpu = some v → (σ.machine p).OnVmOf v

/-- No other virtual processor has become the current one. -/
structure KeepsCurrent {ED SD : Type} (s s' : Scheduler ED SD) : Prop where
  currentVcpu : s'.currentVcpu = s.currentVcpu
  currentVcpuid : s'.currentVcpuid = s.currentVcpuid ∨ s'.currentVcpuid = vcpuidInvalid

theorem CurrentInv.setSched {σ : System gPolicy} (h : ∀ q, CurrentInv σ q) {p : PcpuId}
    {s : Scheduler (gPolicy p).EntryData (gPolicy p).SchedData}
    (hs : KeepsCurrent (σ.sched p) s) (q : PcpuId) : CurrentInv (σ.setSched p s) q := by
  have hq := h q
  have hself : (σ.setSched p s).sched p = s := Function.update_self ..
  by_cases hqp : q = p
  · subst hqp
    refine ⟨fun hvalid => ?_, fun v hv => ?_⟩
    · rw [hself] at hvalid ⊢
      rcases hs.currentVcpuid with hsame | hinvalid
      · rw [hsame] at hvalid ⊢
        rw [hs.currentVcpu]
        exact hq.current hvalid
      · exact absurd hinvalid hvalid
    · rw [hself, hs.currentVcpu] at hv
      exact hq.onVm v hv
  · have hother : (σ.setSched p s).sched q = σ.sched q := Function.update_of_ne hqp ..
    refine ⟨?_, fun v hv => ?_⟩
    · rw [hother]
      exact hq.current
    · rw [hother] at hv
      exact hq.onVm v hv

theorem Scheduler.Touches.keepsCurrent {ED SD : Type} {active : List EntryRef}
    {s s' : Scheduler ED SD} (h : Scheduler.Touches active s s') : KeepsCurrent s s' :=
  ⟨h.currentVcpu, .inl h.currentVcpuid⟩

variable {ED SD : Type} {policy : SchedPolicy ED SD} {refs : SD → List EntryRef}

theorem keepsCurrent_attach (hpolicy : PolicySpec policy refs) (v : VcpuId) (p : PcpuId)
    (s : Scheduler ED SD) : KeepsCurrent s (schedVcpuAttach policy v p s).1 := by
  rw [schedVcpuAttach]
  cases findEntry s v with
  | none => exact ⟨rfl, .inl rfl⟩
  | some i =>
      have hattach := hpolicy.attach i (s.setState i .waiting)
      dsimp only
      split
      · exact ⟨rfl, .inl rfl⟩
      · exact ⟨hattach.currentVcpu, .inl hattach.currentVcpuid⟩

theorem keepsCurrent_detach (hpolicy : PolicySpec policy refs) {current : Option VcpuId}
    {v : VcpuId} {s s' : Scheduler ED SD} (hs : schedVcpuDetach policy current v s = some s') :
    KeepsCurrent s s' := by
  obtain ⟨i, -, hs⟩ := Option.bind_eq_some_iff.mp hs
  obtain ⟨c, -, hs⟩ := Option.bind_eq_some_iff.mp hs
  have hdetach := hpolicy.detach i s
  rw [Option.some.injEq] at hs
  rw [← hs]
  split
  · exact ⟨hdetach.currentVcpu, .inr rfl⟩
  · exact ⟨hdetach.currentVcpu, .inl hdetach.currentVcpuid⟩

/-- What one processor does to the registers and to the virtual processors leaves the machines of
the others alone. -/
theorem setMachine_onVmOf {σ : System gPolicy} {cpu q : PcpuId} {m : Machine}
    (hguests : SameGuests (σ.machine cpu) m) (hq : q ≠ cpu) {v : VcpuId}
    (h : (σ.machine q).OnVmOf v) : ((σ.setMachine cpu m).machine q).OnVmOf v := by
  have hhw : (σ.setMachine cpu m).hw q = σ.hw q := Function.update_of_ne hq ..
  refine h.of_same ⟨hguests.vms, hguests.vmidOf⟩ ?_
  rw [System.machine, System.machine, hhw]
  exact ⟨rfl, rfl, rfl, rfl⟩

theorem machine_setMachine (σ : System gPolicy) (cpu : PcpuId) (m : Machine) :
    (σ.setMachine cpu m).machine cpu = m := by
  rw [System.machine, System.setMachine]
  dsimp only
  rw [Function.update_self]

/-- A switch that is prepared selects a new current processor, and none is prepared if there is
no next one. -/
theorem prepareSwitch_cases {vmidOf : VcpuId → Option VmId} {s : Scheduler ED SD}
    {r : Scheduler ED SD × Option (VcpuId × VcpuId)} (hr : prepareSwitch vmidOf s = some r) :
    r = (s, none) ∨
      ∃ n, r.1.currentVcpuid = n ∧ r.1.currentVcpu = some n ∧ r.2 = some (s.currentVcpuid, n) := by
  rw [prepareSwitch] at hr
  split at hr
  · obtain ⟨vmid, -, rfl⟩ := Option.map_eq_some_iff.mp hr
    exact .inr ⟨s.nextVcpuid, rfl, rfl, rfl⟩
  · exact .inl (Option.some_injective _ hr).symm

theorem currentInv_performSwitch {σ : System gPolicy} (h : ∀ q, CurrentInv σ q) {cpu : PcpuId}
    {regs : Option CoreRegs} {r : System gPolicy × Option CoreRegs}
    (hr : schedPerformSwitch numLr cpu regs σ = some r) (q : PcpuId) : CurrentInv r.1 q := by
  obtain ⟨⟨s, switch⟩, hprepare, hr⟩ := Option.bind_eq_some_iff.mp hr
  rcases prepareSwitch_cases hprepare with hnone | ⟨n, hcur, hvcpu, hswitch⟩
  · obtain ⟨rfl, rfl⟩ := Prod.mk.inj hnone
    obtain rfl := Option.some_injective _ hr
    exact CurrentInv.setSched h ⟨rfl, .inl rfl⟩ q
  · dsimp only at hcur hvcpu hswitch
    subst hswitch
    obtain ⟨⟨m, regs'⟩, hm, hr⟩ := Option.bind_eq_some_iff.mp hr
    obtain rfl := Option.some_injective _ hr
    have hfrom : (σ.sched cpu).currentVcpuid ≠ vcpuidInvalid →
        (σ.machine cpu).OnVmOf (σ.sched cpu).currentVcpuid := fun hvalid =>
      (h cpu).onVm _ ((h cpu).current hvalid)
    obtain ⟨hguests, hon⟩ := doContextSwitch_stageTwo hfrom hm
    by_cases hq : q = cpu
    · subst hq
      have hself : ((σ.setSched q s).setMachine q m).sched q = s := Function.update_self ..
      refine ⟨fun _ => by rw [hself, hvcpu, hcur], fun v hv => ?_⟩
      rw [hself, hvcpu, Option.some.injEq] at hv
      rw [machine_setMachine, ← hv]
      exact hon
    · have hother : ((σ.setSched cpu s).setMachine cpu m).sched q = σ.sched q :=
        Function.update_of_ne hq ..
      refine ⟨by rw [hother]; exact (h q).current, fun v hv => ?_⟩
      rw [hother] at hv
      exact setMachine_onVmOf (σ := σ.setSched cpu s) hguests hq ((h q).onVm v hv)

/-- A call of the policy, the choice of the next processor and the switch to it. -/
theorem currentInv_switchTo {σ : System gPolicy} (h : ∀ q, CurrentInv σ q) {cpu : PcpuId}
    {now expiration : U64}
    {mid : Scheduler (gPolicy cpu).EntryData (gPolicy cpu).SchedData × VcpuId × U64}
    (hmid : ((gPolicy cpu).policy conf).doSchedule now expiration (σ.sched cpu) = some mid)
    {regs : Option CoreRegs} {r : System gPolicy × Option CoreRegs}
    (hr : schedPerformSwitch numLr cpu regs (σ.setSched cpu (switchTo mid.2.1 mid.1)) = some r)
    (q : PcpuId) : CurrentInv r.1 q := by
  have htouches := ((gPolicy cpu).spec conf).schedule now expiration _ mid hmid
  have hkeeps : KeepsCurrent (σ.sched cpu) (switchTo mid.2.1 mid.1) :=
    ⟨htouches.currentVcpu, .inl htouches.currentVcpuid⟩
  exact currentInv_performSwitch (CurrentInv.setSched h hkeeps) hr q

theorem currentInv_step {σ τ : System gPolicy} (h : ∀ q, CurrentInv σ q) {e : SystemEvent}
    (he : systemStep conf numLr σ e = some τ) (q : PcpuId) : CurrentInv τ q := by
  cases e with
  | register v p =>
      obtain rfl := Option.some_injective _ he
      have hkeeps : KeepsCurrent (σ.sched p)
          (schedVcpuRegister ((gPolicy p).policy conf) v (σ.sched p)) := ⟨rfl, .inl rfl⟩
      exact CurrentInv.setSched h hkeeps q
  | attach v p =>
      obtain rfl := Option.some_injective _ he
      exact CurrentInv.setSched h (keepsCurrent_attach ((gPolicy p).spec conf) v p _) q
  | detach cpu v p =>
      obtain ⟨s, hs, rfl⟩ := Option.map_eq_some_iff.mp he
      exact CurrentInv.setSched h (keepsCurrent_detach ((gPolicy p).spec conf) hs) q
  | start cpu now expiration =>
      obtain ⟨mid, hmid, hτ⟩ := Option.bind_eq_some_iff.mp he
      dsimp only at hτ
      split at hτ
      · obtain rfl := Option.some_injective _ hτ
        have htouches := ((gPolicy cpu).spec conf).schedule now expiration _ mid hmid
        exact CurrentInv.setSched h htouches.keepsCurrent q
      · obtain ⟨r, hr, rfl⟩ := Option.map_eq_some_iff.mp hτ
        exact currentInv_switchTo h hmid hr q
  | schedule cpu regs now expiration =>
      obtain ⟨r, hr, rfl⟩ := Option.map_eq_some_iff.mp he
      obtain ⟨mid, hmid, hr⟩ := Option.bind_eq_some_iff.mp hr
      exact currentInv_switchTo h hmid hr q
  | performSwitch cpu regs =>
      obtain ⟨r, hr, rfl⟩ := Option.map_eq_some_iff.mp he
      exact currentInv_performSwitch h hr q
  | guest cpu g =>
      obtain rfl := Option.some_injective _ he
      have hguests : SameGuests (σ.machine cpu) ((σ.machine cpu).guestWrites numLr g) :=
        ⟨rfl, fun _ => rfl⟩
      refine ⟨(h q).current, fun v hv => ?_⟩
      by_cases hq : q = cpu
      · subst hq
        rw [machine_setMachine]
        exact ((h q).onVm v hv).of_same hguests ⟨rfl, rfl, rfl, rfl⟩
      · exact setMachine_onVmOf hguests hq ((h q).onVm v hv)

theorem currentInv_init (conf : SchedConf)
    (block : (p : PcpuId) → Scheduler (gPolicy p).EntryData (gPolicy p).SchedData)
    (hw : PcpuId → Hardware) (vcpus : VcpuId → Option Vcpu) (vms : VmId → Option Vmem)
    (q : PcpuId) : CurrentInv (System.init conf block hw vcpus vms) q :=
  ⟨fun hvalid => absurd rfl hvalid, fun _ hv => by simp [System.init, schedInit] at hv⟩

/-- In every state that the schedulers and the guests can reach, a processor that has switched to
a virtual processor, its `current_vcpu`, has the stage-2 registers of that one's machine; and the
number that the next switch will take for the previous processor is that of `current_vcpu`, or
invalid. -/
theorem stageTwo_of_current (conf : SchedConf) (numLr : ℕ)
    (block : (p : PcpuId) → Scheduler (gPolicy p).EntryData (gPolicy p).SchedData)
    (hw : PcpuId → Hardware) (vcpus : VcpuId → Option Vcpu) (vms : VmId → Option Vmem)
    {es : List SystemEvent} {τ : System gPolicy}
    (hrun : run (systemStep conf numLr) (System.init conf block hw vcpus vms) es = some τ)
    (cpu : PcpuId) :
    (∀ v, (τ.sched cpu).currentVcpu = some v → ∃ vmid vmem, τ.vmidOf v = some vmid ∧
      τ.vms vmid = some vmem ∧ StageTwoOf vmem (τ.hw cpu).regs) ∧
    ((τ.sched cpu).currentVcpuid = vcpuidInvalid ∨
      (τ.sched cpu).currentVcpu = some (τ.sched cpu).currentVcpuid) := by
  have hinv : ∀ q, CurrentInv τ q :=
    run_induction (I := fun _ σ => ∀ q, CurrentInv σ q) (currentInv_init conf block hw vcpus vms)
      (fun _ _ _ _ _ h he => currentInv_step h he) hrun
  refine ⟨(hinv cpu).onVm, ?_⟩
  by_cases hvalid : (τ.sched cpu).currentVcpuid = vcpuidInvalid
  · exact .inl hvalid
  · exact .inr ((hinv cpu).current hvalid)

def twoVms : System fun _ => .rr :=
  System.init default (fun _ => default) default
    (fun v => if v < 2 then some { (default : Vcpu) with vmid := v } else none)
    fun _ => some default

theorem stageTwo_of_current_twoVms :
    ∃ τ, run (systemStep default 4) twoVms
        [.register 0 0, .register 1 0, .attach 0 0, .attach 1 0, .start 0 0 0,
          .schedule 0 none 0 0] = some τ ∧
      ((∀ v, (τ.sched 0).currentVcpu = some v → ∃ vmid vmem, τ.vmidOf v = some vmid ∧
        τ.vms vmid = some vmem ∧ StageTwoOf vmem (τ.hw 0).regs) ∧
      ((τ.sched 0).currentVcpuid = vcpuidInvalid ∨
        (τ.sched 0).currentVcpu = some (τ.sched 0).currentVcpuid)) := by
  have hsome : (run (systemStep default 4) twoVms
      [.register 0 0, .register 1 0, .attach 0 0, .attach 1 0, .start 0 0 0,
        .schedule 0 none 0 0]).isSome = true := rfl
  obtain ⟨τ, hτ⟩ := Option.isSome_iff_exists.mp hsome
  exact ⟨τ, hτ, stageTwo_of_current default 4 _ _ _ _ hτ 0⟩

end KHypervisor
