import KHypervisor.Hypervisor

/-!
# What the calls do

Every call but `vm_delete` is a sequence of a few moves: changes that nobody but the guest sees,
changes of the timer lists, and one move for each thing that the life cycle of a virtual processor
consists of (`hvStep_moves`). An invariant of the life cycle is proved by looking at the moves, and
at `vm_delete`.
-/

namespace KHypervisor

open Run Hypervisor Scheduler

/-! ## Places -/

def Vcpu.place (vcpu : Vcpu) : PcpuId × VmId := (vcpu.pcpuid, vcpu.vmid)

/-- What an assignment to a virtual processor keeps of it, it keeps of everybody. -/
theorem map_update {β : Type} (g : Vcpu → β) {f : VcpuId → Option Vcpu} {v : VcpuId}
    {vcpu vcpu' : Vcpu} (hv : f v = some vcpu) (hg : g vcpu' = g vcpu) (w : VcpuId) :
    (Function.update f v (some vcpu') w).map g = (f w).map g := by
  by_cases hw : w = v
  · rw [hw, Function.update_self, hv, Option.map_some, Option.map_some, hg]
  · rw [Function.update_of_ne hw]

/-- The same machines, and the same virtual processors in the same places. -/
structure SamePlaces (s s' : Machine) : Prop where
  vms : s'.vms = s.vms
  place : ∀ v, (s'.vcpus v).map Vcpu.place = (s.vcpus v).map Vcpu.place

theorem SamePlaces.refl (s : Machine) : SamePlaces s s := ⟨rfl, fun _ => rfl⟩

theorem SamePlaces.trans {s s' s'' : Machine} (h : SamePlaces s s') (h' : SamePlaces s' s'') :
    SamePlaces s s'' :=
  ⟨h'.vms.trans h.vms, fun v => (h'.place v).trans (h.place v)⟩

theorem samePlaces_vcpuSave {numLr : ℕ} {v : VcpuId} {frame : Option CoreRegs} {s s' : Machine}
    (h : vcpuSave numLr v frame s = some s') : SamePlaces s s' := by
  obtain ⟨vcpu, hvcpu, rfl⟩ := Option.map_eq_some_iff.mp h
  exact ⟨rfl, map_update Vcpu.place hvcpu rfl⟩

theorem samePlaces_vcpuRestore {numLr : ℕ} {v : VcpuId} {frame frame' : Option CoreRegs}
    {s s' : Machine} (h : vcpuRestore numLr v frame s = some (s', frame')) : SamePlaces s s' := by
  obtain ⟨vcpu, hvcpu, hs⟩ := Option.map_eq_some_iff.mp h
  cases frame with
  | none =>
      obtain ⟨rfl, -⟩ := Prod.mk.inj hs
      exact ⟨rfl, fun _ => rfl⟩
  | some frame =>
      obtain ⟨rfl, -⟩ := Prod.mk.inj hs
      exact ⟨rfl, map_update Vcpu.place hvcpu rfl⟩

theorem samePlaces_vmRestore {vmid : VmId} {s s' : Machine} (h : vmRestore vmid s = some s') :
    SamePlaces s s' := by
  obtain ⟨vmem, -, rfl⟩ := Option.map_eq_some_iff.mp h
  exact ⟨rfl, fun _ => rfl⟩

theorem samePlaces_doContextSwitch {numLr : ℕ} {c n : VcpuId} {frame frame' : Option CoreRegs}
    {s s' : Machine} (h : doContextSwitch numLr c n frame s = some (s', frame')) :
    SamePlaces s s' := by
  have hrestore : ∀ {vmid : VmId} {t : Machine}, ((vmRestore vmid t).bind fun u =>
      vcpuRestore numLr n frame u) = some (s', frame') → SamePlaces t s' := by
    intro vmid t ht
    obtain ⟨u, hu, hrest⟩ := Option.bind_eq_some_iff.mp ht
    exact (samePlaces_vmRestore hu).trans (samePlaces_vcpuRestore hrest)
  obtain ⟨next, -, h⟩ := Option.bind_eq_some_iff.mp h
  by_cases hc : c = vcpuidInvalid
  · rw [if_pos hc] at h
    exact hrestore h
  · rw [if_neg hc] at h
    obtain ⟨current, -, h⟩ := Option.bind_eq_some_iff.mp h
    obtain ⟨mid, hmid, h⟩ := Option.bind_eq_some_iff.mp h
    have hsave := samePlaces_vcpuSave hmid
    by_cases hvm : current.vmid ≠ next.vmid
    · rw [if_pos hvm] at h
      have hleave : SamePlaces mid (vmSave current.vmid mid) := ⟨rfl, fun _ => rfl⟩
      exact hsave.trans (hleave.trans (hrestore h))
    · rw [if_neg hvm] at h
      exact hsave.trans (samePlaces_vcpuRestore h)

/-! ## A switch -/

/-- A switch is prepared to the next virtual processor, if its number is valid. -/
theorem prepareSwitch_spec {ED SD : Type} {vmidOf : VcpuId → Option VmId} {s s' : Scheduler ED SD}
    {switch : Option (VcpuId × VcpuId)} (h : prepareSwitch vmidOf s = some (s', switch)) :
    SameEntries s s' ∧
      (SameCurrent s s' ∨ s.nextVcpuid ≠ vcpuidInvalid ∧
        ∃ vmid, vmidOf s.nextVcpuid = some vmid ∧ SwitchedTo s.nextVcpuid vmid s') := by
  refine ⟨prepareSwitch_sameEntries h, ?_⟩
  rw [prepareSwitch] at h
  by_cases hnext : s.nextVcpuid ≠ vcpuidInvalid
  · rw [if_pos hnext] at h
    obtain ⟨vmid, hvmid, hs⟩ := Option.map_eq_some_iff.mp h
    obtain ⟨rfl, -⟩ := Prod.mk.inj hs
    exact .inr ⟨hnext, vmid, hvmid, rfl, rfl, rfl⟩
  · rw [if_neg hnext] at h
    obtain ⟨rfl, -⟩ := Prod.mk.inj (Option.some.inj h)
    exact .inl ⟨rfl, rfl, rfl⟩

variable {gPolicy : PcpuId → PolicyName}

/-- What `sched_perform_switch` does on processor `cpu`. -/
structure PerformsSwitch (cpu : PcpuId) (σ σ' : System gPolicy) : Prop where
  vms : σ'.vms = σ.vms
  place : ∀ v, (σ'.vcpus v).map Vcpu.place = (σ.vcpus v).map Vcpu.place
  others : ∀ q, q ≠ cpu → σ'.sched q = σ.sched q
  entries : SameEntries (σ.sched cpu) (σ'.sched cpu)
  current : SameCurrent (σ.sched cpu) (σ'.sched cpu) ∨ (σ.sched cpu).nextVcpuid ≠ vcpuidInvalid ∧
    ∃ vmid, σ.vmidOf (σ.sched cpu).nextVcpuid = some vmid ∧
      SwitchedTo (σ.sched cpu).nextVcpuid vmid (σ'.sched cpu)

theorem schedPerformSwitch_spec {numLr : ℕ} {cpu : PcpuId} {regs regs' : Option CoreRegs}
    {σ σ' : System gPolicy} (h : schedPerformSwitch numLr cpu regs σ = some (σ', regs')) :
    PerformsSwitch cpu σ σ' := by
  obtain ⟨⟨s, switch⟩, hprepare, h⟩ := Option.bind_eq_some_iff.mp h
  obtain ⟨hentries, hcurrent⟩ := prepareSwitch_spec hprepare
  have hself : (σ.setSched cpu s).sched cpu = s := Function.update_self ..
  have hothers : ∀ q, q ≠ cpu → (σ.setSched cpu s).sched q = σ.sched q := fun q hq =>
    Function.update_of_ne hq ..
  cases switch with
  | none =>
      obtain ⟨rfl, -⟩ := Prod.mk.inj (Option.some.inj h)
      exact ⟨rfl, fun _ => rfl, hothers, by rwa [hself], by rwa [hself]⟩
  | some pair =>
      obtain ⟨⟨m, frame⟩, hm, hσ⟩ := Option.bind_eq_some_iff.mp h
      obtain ⟨rfl, -⟩ := Prod.mk.inj (Option.some.inj hσ)
      have hplaces := samePlaces_doContextSwitch hm
      have hsame : ((σ.setSched cpu s).setMachine cpu m).sched = (σ.setSched cpu s).sched := rfl
      refine ⟨hplaces.vms, hplaces.place, ?_, ?_, ?_⟩
      · rwa [hsame]
      · rwa [hsame, hself]
      · rwa [hsame, hself]

/-! ## Moves -/

/-- Everything that the life cycle is about is the same, but for the schedulers. -/
structure SameTables (H H' : Hypervisor gPolicy) : Prop where
  place : ∀ v, (H'.sys.vcpus v).map Vcpu.place = (H.sys.vcpus v).map Vcpu.place
  vms : ∀ m, (H'.sys.vms m).isSome = (H.sys.vms m).isSome
  array : ∀ m, (H'.vmcb m).vcpu = (H.vmcb m).vcpu
  state : ∀ v, (H'.life v).state = (H.life v).state
  nrVcpus : H'.nrVcpus = H.nrVcpus
  vmCount : H'.vmCount = H.vmCount
  timers : H'.timers = H.timers

/-- Everything that the life cycle is about is the same. -/
structure SameFrame (H H' : Hypervisor gPolicy) : Prop extends SameTables H H' where
  sched : H'.sys.sched = H.sys.sched

/-- The machine is there, and the virtual processor is one of its. -/
def Hypervisor.Owns (H : Hypervisor gPolicy) (m : VmId) (v : VcpuId) : Prop :=
  (H.sys.vms m).isSome = true ∧ v ∈ (H.vmcb m).vcpu

/-- Virtual processors have been created, and perhaps a machine for them. -/
structure Creates (H H' : Hypervisor gPolicy) : Prop where
  sched : H'.sys.sched = H.sys.sched
  timers : H'.timers = H.timers
  nrVcpus : H.nrVcpus ≤ H'.nrVcpus
  vmCount : H.vmCount ≤ H'.vmCount
  old : ∀ v, v < H.nrVcpus ∨ H'.nrVcpus ≤ v →
    H'.sys.vcpus v = H.sys.vcpus v ∧ H'.life v = H.life v
  new : ∀ v, H.nrVcpus ≤ v → v < H'.nrVcpus →
    (∃ vcpu, H'.sys.vcpus v = some vcpu ∧ vcpu.vmid = H.vmCount) ∧ (H'.life v).state = .defined
  vms : (H'.sys.vms = H.sys.vms ∧ H'.vmcb = H.vmcb) ∨
    H.vmCount < H'.vmCount ∧ ∃ vmem vm,
      H'.sys.vms = Function.update H.sys.vms H.vmCount (some vmem) ∧
      H'.vmcb = Function.update H.vmcb H.vmCount vm ∧ vm.vcpu.Nodup ∧
      ∀ v ∈ vm.vcpu, H.nrVcpus ≤ v ∧ v < H'.nrVcpus

/-- The policy of processor `cpu` has been asked, and what it chose has been switched to if it is
valid. -/
structure Schedules (conf : HvConf) (cpu : PcpuId) (H H' : Hypervisor gPolicy) : Prop
    extends SameTables H H' where
  others : ∀ q, q ≠ cpu → H'.sys.sched q = H.sys.sched q
  chosen : ∃ now expiration r,
    ((gPolicy cpu).policy conf.sched).doSchedule now expiration (H.sys.sched cpu) = some r ∧
      SameEntries r.1 (H'.sys.sched cpu) ∧
      (SameCurrent r.1 (H'.sys.sched cpu) ∨ r.2.1 ≠ vcpuidInvalid ∧
        ∃ vmid, H.sys.vmidOf r.2.1 = some vmid ∧ SwitchedTo r.2.1 vmid (H'.sys.sched cpu))

/-- A step in the life of the machines and virtual processors. -/
inductive Move (conf : HvConf) : Hypervisor gPolicy → Hypervisor gPolicy → Prop
  | same {H H'} (h : SameFrame H H') : Move conf H H'
  | timers {H T'} (h : ∀ R, TimersWithin R H.timers → TimersWithin R T') :
      Move conf H { H with timers := T' }
  | registerTimer {H T'} {cpu : PcpuId} {t : TimerRef}
      (h : tmRegisterTimer cpu t H.timers = some T')
      (hlive : ∀ v, t = .vtimer v → (H.sys.vcpus v).isSome = true) :
      Move conf H { H with timers := T' }
  | create {H H'} (h : Creates H H') : Move conf H H'
  | register {H} {v : VcpuId} {m : VmId} {vcpu vcpu' : Vcpu} {life : VcpuLife}
      (hv : H.sys.vcpus v = some vcpu) (howns : H.Owns m v)
      (hplace : vcpu'.place = (conf.vcpuToPcpu v, vcpu.vmid)) (hstate : life.state = .registered) :
      Move conf H (((H.setVcpu v vcpu').setSched (conf.vcpuToPcpu v)
        (schedVcpuRegister ((gPolicy (conf.vcpuToPcpu v)).policy conf.sched) v
          (H.sys.sched (conf.vcpuToPcpu v)))).setLife v life)
  | attach {H} {v : VcpuId} {m : VmId} {vcpu : Vcpu} {p : PcpuId}
      (hv : H.sys.vcpus v = some vcpu) (howns : H.Owns m v)
      (hp : p = conf.vcpuToPcpu v ∨ p = vcpu.pcpuid) :
      Move conf H ((H.attach conf v p).setState v .activated)
  | detach {H} {v : VcpuId} {current : Option VcpuId}
      {s : Scheduler (gPolicy (conf.vcpuToPcpu v)).EntryData
        (gPolicy (conf.vcpuToPcpu v)).SchedData}
      (h : schedVcpuDetach ((gPolicy (conf.vcpuToPcpu v)).policy conf.sched) current v
        (H.sys.sched (conf.vcpuToPcpu v)) = some s) :
      Move conf H ((H.setSched (conf.vcpuToPcpu v) s).setState v .registered)
  | schedule {H H'} {cpu : PcpuId} (h : Schedules conf cpu H H') : Move conf H H'

abbrev Moves (conf : HvConf) : Hypervisor gPolicy → Hypervisor gPolicy → Prop :=
  Relation.ReflTransGen (Move conf)

variable {conf : HvConf} {H H' H'' : Hypervisor gPolicy}

/-! ## The frame -/

theorem SameTables.refl (H : Hypervisor gPolicy) : SameTables H H :=
  ⟨fun _ => rfl, fun _ => rfl, fun _ => rfl, fun _ => rfl, rfl, rfl, rfl⟩

theorem SameTables.trans (h : SameTables H H') (h' : SameTables H' H'') : SameTables H H'' where
  place v := (h'.place v).trans (h.place v)
  vms m := (h'.vms m).trans (h.vms m)
  array m := (h'.array m).trans (h.array m)
  state v := (h'.state v).trans (h.state v)
  nrVcpus := h'.nrVcpus.trans h.nrVcpus
  vmCount := h'.vmCount.trans h.vmCount
  timers := h'.timers.trans h.timers

theorem SameFrame.refl (H : Hypervisor gPolicy) : SameFrame H H := ⟨.refl H, rfl⟩

theorem SameFrame.trans (h : SameFrame H H') (h' : SameFrame H' H'') : SameFrame H H'' :=
  ⟨h.toSameTables.trans h'.toSameTables, h'.sched.trans h.sched⟩

theorem SameTables.live (h : SameTables H H') (v : VcpuId) :
    (H'.sys.vcpus v).isSome = (H.sys.vcpus v).isSome := by
  have hplace := congrArg Option.isSome (h.place v)
  rwa [Option.isSome_map, Option.isSome_map] at hplace

theorem SameTables.owns (h : SameTables H H') {m : VmId} {v : VcpuId} :
    H'.Owns m v ↔ H.Owns m v := by
  rw [Owns, Owns, h.vms, h.array]

theorem sameFrame_setVcpu {v : VcpuId} {vcpu vcpu' : Vcpu} (hv : H.sys.vcpus v = some vcpu)
    (hplace : vcpu'.place = vcpu.place) : SameFrame H (H.setVcpu v vcpu') :=
  ⟨⟨map_update Vcpu.place hv hplace, fun _ => rfl, fun _ => rfl, fun _ => rfl, rfl, rfl, rfl⟩, rfl⟩

theorem sameFrame_setMachine {cpu : PcpuId} {m : Machine}
    (h : SamePlaces (H.sys.machine cpu) m) : SameFrame H (H.setMachine cpu m) :=
  ⟨⟨h.place, fun m' => congrArg (fun vms => (vms m').isSome) h.vms, fun _ => rfl, fun _ => rfl, rfl,
    rfl, rfl⟩, rfl⟩

theorem sameFrame_setLife {v : VcpuId} {life : VcpuLife} (hstate : life.state = (H.life v).state) :
    SameFrame H (H.setLife v life) := by
  refine ⟨⟨fun _ => rfl, fun _ => rfl, fun _ => rfl, fun w => ?_, rfl, rfl, rfl⟩, rfl⟩
  rw [setLife_life]
  by_cases hw : w = v
  · rw [if_pos hw, hw, hstate]
  · rw [if_neg hw]

theorem sameFrame_setVmem {m : VmId} {vmem : Vmem} (hm : (H.sys.vms m).isSome = true) :
    SameFrame H (H.setVmem m vmem) := by
  refine ⟨⟨fun _ => rfl, fun m' => ?_, fun _ => rfl, fun _ => rfl, rfl, rfl, rfl⟩, rfl⟩
  rw [setVmem_vms]
  by_cases hm' : m' = m
  · rw [if_pos hm', hm', hm, Option.isSome_some]
  · rw [if_neg hm']

theorem sameFrame_setVmcb {m : VmId} {vm : Vmcb} (hvm : vm.vcpu = (H.vmcb m).vcpu) :
    SameFrame H (H.setVmcb m vm) := by
  refine ⟨⟨fun _ => rfl, fun _ => rfl, fun m' => ?_, fun _ => rfl, rfl, rfl, rfl⟩, rfl⟩
  rw [setVmcb_vmcb]
  by_cases hm' : m' = m
  · rw [if_pos hm', hm', hvm]
  · rw [if_neg hm']

/-! ## The life cycle -/

/-- The machines and what belongs to them are the same. -/
structure SameVms (H H' : Hypervisor gPolicy) : Prop where
  vms : H'.sys.vms = H.sys.vms
  vmcb : H'.vmcb = H.vmcb

theorem SameVms.refl (H : Hypervisor gPolicy) : SameVms H H := ⟨rfl, rfl⟩

theorem SameVms.trans (h : SameVms H H') (h' : SameVms H' H'') : SameVms H H'' :=
  ⟨h'.vms.trans h.vms, h'.vmcb.trans h.vmcb⟩

theorem SameVms.owns (h : SameVms H H') {m : VmId} {v : VcpuId} : H'.Owns m v ↔ H.Owns m v := by
  rw [Owns, Owns, h.vms, h.vmcb]

/-- A function that is called for the virtual processors of a machine in turn makes moves if every
call does. -/
theorem moves_run {m : VmId} {f : Hypervisor gPolicy → VcpuId → Option (Hypervisor gPolicy)}
    {vs : List VcpuId} (hvs : ∀ v ∈ vs, H.Owns m v)
    (hf : ∀ J v J', J.Owns m v → f J v = some J' → Moves conf J J' ∧ SameVms J J')
    (h : run f H vs = some H') : Moves conf H H' ∧ SameVms H H' := by
  refine run_invariant (I := fun J => Moves conf H J ∧ SameVms H J) h ⟨.refl, .refl H⟩ ?_
  rintro J v hv J' ⟨hmoves, hsame⟩ hJ
  obtain ⟨hmoves', hsame'⟩ := hf J v J' (hsame.owns.mpr (hvs v hv)) hJ
  exact ⟨hmoves.trans hmoves', hsame.trans hsame'⟩

theorem moves_vcpuInit {cpu : PcpuId} {syscounter : U64} {m : VmId} {v : VcpuId}
    (howns : H.Owns m v) (h : vcpuInit conf cpu syscounter v H = some H') :
    Moves conf H H' ∧ SameVms H H' := by
  obtain ⟨vcpu, hv, h⟩ := Option.bind_eq_some_iff.mp h
  obtain ⟨timers, htimers, h⟩ := Option.bind_eq_some_iff.mp h
  obtain rfl := Option.some.inj h
  refine ⟨.tail (.single (.register hv howns rfl rfl)) (.registerTimer htimers ?_), rfl, rfl⟩
  intro w hw
  rw [← TimerRef.vtimer.inj hw]
  exact congrArg Option.isSome ((setVcpu_vcpus H v v _).trans (if_pos rfl))

theorem moves_vmInitVcpu {cpu : PcpuId} {syscounter : VcpuId → U64} {m : VmId} {v : VcpuId}
    (howns : H.Owns m v) (h : vmInitVcpu conf cpu syscounter m H v = some H') :
    Moves conf H H' ∧ SameVms H H' := by
  obtain ⟨H₁, h₁, h⟩ := Option.bind_eq_some_iff.mp h
  obtain ⟨vcpu, hv, h⟩ := Option.bind_eq_some_iff.mp h
  obtain ⟨hmoves, hsame⟩ := moves_vcpuInit howns h₁
  obtain rfl := Option.some.inj h
  split
  · exact ⟨hmoves.tail (.same (sameFrame_setVcpu hv rfl)), hsame.vms, hsame.vmcb⟩
  · exact ⟨hmoves, hsame⟩

theorem moves_vmInit {cpu : PcpuId} {syscounter : VcpuId → U64} {m : VmId}
    {r : Hypervisor gPolicy × Option VmcbState} (h : vmInit conf cpu syscounter m H = some r) :
    Moves conf H r.1 := by
  rw [vmInit] at h
  cases hm : H.sys.vms m with
  | none =>
      rw [hm] at h
      rw [← Option.some.inj h]
  | some vmem =>
      rw [hm] at h
      obtain ⟨H₁, h₁, h⟩ := Option.bind_eq_some_iff.mp h
      obtain ⟨⟨vmem', mem, regs⟩, -, h⟩ := Option.bind_eq_some_iff.mp h
      have hlive : (H.sys.vms m).isSome = true := by rw [hm, Option.isSome_some]
      obtain ⟨hmoves, hsame⟩ := moves_run (fun v hv => ⟨hlive, hv⟩)
        (fun J v J' howns hJ => moves_vmInitVcpu howns hJ) h₁
      have hlive₁ : (H₁.sys.vms m).isSome = true := by rw [hsame.vms, hlive]
      have hstate : SameFrame H₁ (H₁.setVmState m .halted) := sameFrame_setVmcb rfl
      have hmem : SameFrame (H₁.setVmState m .halted)
          { H₁.setVmState m .halted with mem := mem } :=
        ⟨⟨fun _ => rfl, fun _ => rfl, fun _ => rfl, fun _ => rfl, rfl, rfl, rfl⟩, rfl⟩
      have hset : SameFrame { H₁.setVmState m .halted with mem := mem }
          ({ H₁.setVmState m .halted with mem := mem }.setVmem m vmem') := sameFrame_setVmem hlive₁
      rw [← Option.some.inj h]
      exact hmoves.tail (.same ((hstate.trans hmem).trans (hset.trans
        (sameFrame_setMachine ⟨rfl, fun _ => rfl⟩))))

theorem moves_vcpuStart {m : VmId} {v : VcpuId} (howns : H.Owns m v)
    (h : vcpuStart conf v H = some H') : Moves conf H H' ∧ SameVms H H' := by
  obtain ⟨vcpu, hv, h⟩ := Option.bind_eq_some_iff.mp h
  split at h
  · rw [← Option.some.inj h]
    exact ⟨.single (.attach hv howns (.inl rfl)), rfl, rfl⟩
  · rw [← Option.some.inj h]
    exact ⟨.refl, .refl H⟩

theorem moves_vmStart {m : VmId} {r : Hypervisor gPolicy × Option VmcbState}
    (h : vmStart conf m H = some r) : Moves conf H r.1 := by
  rw [vmStart] at h
  cases hm : H.sys.vms m with
  | none =>
      rw [hm] at h
      rw [← Option.some.inj h]
  | some vmem =>
      rw [hm] at h
      obtain ⟨H₁, h₁, h⟩ := Option.bind_eq_some_iff.mp h
      have hlive : (H.sys.vms m).isSome = true := by rw [hm, Option.isSome_some]
      obtain ⟨hmoves, -⟩ := moves_run (fun v hv => ⟨hlive, hv⟩)
        (fun J v J' howns hJ => moves_vcpuStart howns hJ) h₁
      rw [← Option.some.inj h]
      exact hmoves.tail (.same (sameFrame_setVmcb rfl))

theorem moves_vcpuSuspend {cpu : PcpuId} {regs : Option CoreRegs} {v : VcpuId}
    (h : vcpuSuspend conf cpu regs v H = some H') : Moves conf H H' ∧ SameVms H H' := by
  obtain ⟨mach, hsave, h⟩ := Option.bind_eq_some_iff.mp h
  obtain ⟨s, hs, h⟩ := Option.bind_eq_some_iff.mp h
  have hplaces := samePlaces_vcpuSave hsave
  rw [← Option.some.inj h]
  exact ⟨.tail (.single (.same (sameFrame_setMachine hplaces))) (.detach hs), hplaces.vms, rfl⟩

theorem moves_vmSuspend {cpu : PcpuId} {m : VmId} {regs : Option CoreRegs}
    {r : Hypervisor gPolicy × Option VmcbState} (h : vmSuspend conf cpu m regs H = some r) :
    Moves conf H r.1 := by
  rw [vmSuspend] at h
  cases hm : H.sys.vms m with
  | none =>
      rw [hm] at h
      rw [← Option.some.inj h]
  | some vmem =>
      rw [hm] at h
      obtain ⟨H₁, h₁, h⟩ := Option.bind_eq_some_iff.mp h
      have hsave : SameFrame H (H.setMachine cpu (vmSave m (H.sys.machine cpu))) :=
        sameFrame_setMachine ⟨rfl, fun _ => rfl⟩
      have hlive : (H.sys.vms m).isSome = true := by rw [hm, Option.isSome_some]
      obtain ⟨hmoves, -⟩ := moves_run (H := H.setMachine cpu (vmSave m (H.sys.machine cpu)))
        (f := fun J v => vcpuSuspend conf cpu regs v J) (fun v hv => ⟨hlive, hv⟩)
        (fun J v J' _ hJ => moves_vcpuSuspend hJ) h₁
      rw [← Option.some.inj h]
      exact (Relation.ReflTransGen.head (.same hsave) hmoves).tail (.same (sameFrame_setVmcb rfl))

/-! ## Creation -/

/-- Virtual processors have been created for machine `vmid`. -/
structure CreatesVcpus (vmid : VmId) (H H' : Hypervisor gPolicy) : Prop where
  sched : H'.sys.sched = H.sys.sched
  vms : H'.sys.vms = H.sys.vms
  vmcb : H'.vmcb = H.vmcb
  vmCount : H'.vmCount = H.vmCount
  timers : H'.timers = H.timers
  nrVcpus : H.nrVcpus ≤ H'.nrVcpus
  old : ∀ v, v < H.nrVcpus ∨ H'.nrVcpus ≤ v →
    H'.sys.vcpus v = H.sys.vcpus v ∧ H'.life v = H.life v
  new : ∀ v, H.nrVcpus ≤ v → v < H'.nrVcpus →
    (∃ vcpu, H'.sys.vcpus v = some vcpu ∧ vcpu.vmid = vmid) ∧ (H'.life v).state = .defined

/-- The state after a turn of the loop of `vm_create`. -/
def Hypervisor.createVcpu (type : VmcbType) (vmid : VmId) (i : ℕ) (H : Hypervisor gPolicy) :
    Hypervisor gPolicy :=
  let J := (vcpuCreate type.vcpuType H).1
  { J with sys := { J.sys with
    vcpus := Function.update J.sys.vcpus H.nrVcpus
      ((J.sys.vcpus H.nrVcpus).map fun vcpu => { vcpu with vmid := vmid, id := i }) } }

theorem createVcpus_cons (type : VmcbType) (vmid : VmId) (alloc : ℕ → Bool) (i : ℕ) (is : List ℕ)
    (array : List VcpuId) (H : Hypervisor gPolicy) (hi : alloc i = true) :
    createVcpus type vmid alloc (i :: is) array H =
      createVcpus type vmid alloc is (array ++ [H.nrVcpus]) (H.createVcpu type vmid i) := by
  rw [createVcpus, if_pos hi]
  rfl

theorem createVcpu_vcpus (type : VmcbType) (vmid : VmId) (i : ℕ) (H : Hypervisor gPolicy) :
    (H.createVcpu type vmid i).sys.vcpus = Function.update H.sys.vcpus H.nrVcpus
      (some { (default : Vcpu) with vmid := vmid, id := i, map := createMap }) := by
  simp only [createVcpu, vcpuCreate, setVcpu, setLife, Function.update_self, Function.update_idem,
    Option.map_some]

theorem createsVcpus_createVcpu (type : VmcbType) (vmid : VmId) (i : ℕ)
    (H : Hypervisor gPolicy) : CreatesVcpus vmid H (H.createVcpu type vmid i) := by
  have hlife : (H.createVcpu type vmid i).life = Function.update H.life H.nrVcpus
      { (default : VcpuLife) with state := .defined, type := type.vcpuType } := rfl
  have hnr : (H.createVcpu type vmid i).nrVcpus = H.nrVcpus + 1 := rfl
  refine ⟨rfl, rfl, rfl, rfl, rfl, Nat.le_succ _, fun v hv => ?_, fun v hv hv' => ?_⟩
  · have hne : v ≠ H.nrVcpus := by
      rw [hnr] at hv
      rintro rfl
      exact hv.elim (Nat.lt_irrefl _) fun hle => Nat.not_succ_le_self _ hle
    rw [createVcpu_vcpus, hlife, Function.update_of_ne hne, Function.update_of_ne hne]
    exact ⟨rfl, rfl⟩
  · obtain rfl : v = H.nrVcpus := Nat.le_antisymm (Nat.le_of_lt_succ hv') hv
    rw [createVcpu_vcpus, hlife, Function.update_self, Function.update_self]
    exact ⟨⟨_, rfl, rfl⟩, rfl⟩

theorem CreatesVcpus.refl (vmid : VmId) (H : Hypervisor gPolicy) : CreatesVcpus vmid H H :=
  ⟨rfl, rfl, rfl, rfl, rfl, Nat.le_refl _, fun _ _ => ⟨rfl, rfl⟩,
    fun _ hv hv' => absurd hv (Nat.not_le_of_lt hv')⟩

theorem CreatesVcpus.trans {vmid : VmId} (h : CreatesVcpus vmid H H')
    (h' : CreatesVcpus vmid H' H'') : CreatesVcpus vmid H H'' where
  sched := h'.sched.trans h.sched
  vms := h'.vms.trans h.vms
  vmcb := h'.vmcb.trans h.vmcb
  vmCount := h'.vmCount.trans h.vmCount
  timers := h'.timers.trans h.timers
  nrVcpus := h.nrVcpus.trans h'.nrVcpus
  old v hv := by
    have hle := h.nrVcpus
    have hle' := h'.nrVcpus
    have hv₁ : v < H.nrVcpus ∨ H'.nrVcpus ≤ v := hv.imp_right hle'.trans
    have hv₂ : v < H'.nrVcpus ∨ H''.nrVcpus ≤ v := hv.imp_left fun hlt => hlt.trans_le hle
    exact ⟨(h'.old v hv₂).1.trans (h.old v hv₁).1, (h'.old v hv₂).2.trans (h.old v hv₁).2⟩
  new v hv hv' := by
    by_cases hlt : v < H'.nrVcpus
    · rw [(h'.old v (.inl hlt)).1, (h'.old v (.inl hlt)).2]
      exact h.new v hv hlt
    · exact h'.new v (Nat.le_of_not_lt hlt) hv'

/-- The loop of `vm_create` numbers the virtual processors upwards. -/
theorem createVcpus_spec (type : VmcbType) (vmid : VmId) (alloc : ℕ → Bool) (is : List ℕ)
    (array : List VcpuId) (H : Hypervisor gPolicy) :
    CreatesVcpus vmid H (createVcpus type vmid alloc is array H).1 ∧
      ∀ array', (createVcpus type vmid alloc is array H).2 = some array' →
        ∃ n, array' = array ++ List.range' H.nrVcpus n ∧
          H.nrVcpus + n = (createVcpus type vmid alloc is array H).1.nrVcpus := by
  induction is generalizing array H with
  | nil =>
      refine ⟨.refl vmid H, fun array' h => ⟨0, ?_, rfl⟩⟩
      rw [List.range'_zero, List.append_nil, ← Option.some.inj h]
  | cons i is ih =>
      by_cases hi : alloc i = true
      · obtain ⟨hcreates, harray⟩ := ih (array ++ [H.nrVcpus]) (H.createVcpu type vmid i)
        rw [createVcpus_cons type vmid alloc i is array H hi]
        refine ⟨(createsVcpus_createVcpu type vmid i H).trans hcreates, fun array' h => ?_⟩
        obtain ⟨n, hn, hnr⟩ := harray array' h
        have hnext : (H.createVcpu type vmid i).nrVcpus = H.nrVcpus + 1 := rfl
        refine ⟨n + 1, ?_, ?_⟩
        · rw [hn, hnext, List.append_assoc, List.range'_succ]
          rfl
        · rw [← hnr, hnext, Nat.add_assoc, Nat.add_comm n 1]
      · rw [createVcpus, if_neg hi]
        exact ⟨.refl vmid H, fun array' h => by simp at h⟩

theorem CreatesVcpus.creates (h : CreatesVcpus H.vmCount { H with vmCount := H.vmCount + 1 } H') :
    Creates H H' :=
  ⟨h.sched, h.timers, h.nrVcpus, by rw [h.vmCount]; exact Nat.le_succ _, h.old, h.new,
    .inl ⟨h.vms, h.vmcb⟩⟩

theorem creates_refl (H : Hypervisor gPolicy) : Creates H H :=
  ⟨rfl, rfl, Nat.le_refl _, Nat.le_refl _, fun _ _ => ⟨rfl, rfl⟩,
    fun _ hv hv' => absurd hv (Nat.not_le_of_lt hv'), .inl ⟨rfl, rfl⟩⟩

theorem creates_vmCreate (conf : HvConf) (numVcpus : U8) (type : VmcbType) (alloc : VmAlloc)
    (H : Hypervisor gPolicy) : Creates H (vmCreate conf numVcpus type alloc H).1 := by
  rw [vmCreate]
  by_cases hvm : alloc.vm = true
  · rw [if_pos hvm]
    by_cases harray : alloc.array = true
    · dsimp only
      rw [if_pos harray]
      obtain ⟨hcreates, hspec⟩ := createVcpus_spec type H.vmCount alloc.vcpu
        (List.range numVcpus.toNat) [] { H with vmCount := H.vmCount + 1 }
      rcases hr : createVcpus type H.vmCount alloc.vcpu (List.range numVcpus.toNat) []
        { H with vmCount := H.vmCount + 1 } with ⟨J, _ | array⟩
      · rw [hr] at hcreates
        exact hcreates.creates
      · rw [hr] at hcreates hspec
        obtain ⟨n, hn, hnr⟩ := hspec array rfl
        have hold := hcreates.creates
        have hvmCount : H.vmCount < J.vmCount := by
          rw [hcreates.vmCount]
          exact Nat.lt_succ_self _
        refine ⟨hold.sched, hold.timers, hold.nrVcpus, hold.vmCount, hold.old, hold.new,
          .inr ⟨hvmCount, (vmemCreate conf.platform default H.vmCount J.mem).1,
            ⟨array, type, .defined⟩, ?_, ?_, ?_, fun v hv => ?_⟩⟩
        · exact congrArg (Function.update · H.vmCount _) hcreates.vms
        · exact congrArg (Function.update · H.vmCount _) hcreates.vmcb
        · rw [hn]
          exact List.nodup_range'
        · rw [hn, List.nil_append, List.mem_range'_1] at hv
          exact ⟨hv.1, hv.2.trans_eq hnr⟩
    · dsimp only
      rw [if_neg harray]
      exact (CreatesVcpus.refl H.vmCount _).creates
  · rw [if_neg hvm]
    exact creates_refl H

/-! ## The other calls -/

theorem sameFrame_copyVcpus {regs : CoreRegs} {vs ws : List VcpuId}
    (h : copyVcpus conf regs vs ws H = some H') : SameFrame H H' := by
  induction vs generalizing ws H with
  | nil =>
      rw [copyVcpus] at h
      rw [← Option.some.inj h]
      exact .refl H
  | cons v vs ih =>
      cases ws with
      | nil => simp [copyVcpus] at h
      | cons w ws =>
          obtain ⟨src, -, h⟩ := Option.bind_eq_some_iff.mp h
          obtain ⟨dst, hdst, h⟩ := Option.bind_eq_some_iff.mp h
          have hset : SameFrame H (H.setVcpu w (vcpuCopy conf.numLr src dst regs)) :=
            sameFrame_setVcpu hdst rfl
          exact hset.trans (ih h)

/-- A machine that is there has been copied to another one, with a state of the controller of the
memory's copy. -/
def Copies (conf : HvConf) (src dst : VmId) (regs : CoreRegs) (H H' : Hypervisor gPolicy) : Prop :=
  ∃ vmemSrc vmemDst L dma, H.sys.vms src = some vmemSrc ∧ H.sys.vms dst = some vmemDst ∧
    copyVcpus conf regs (H.vmcb src).vcpu (H.vmcb dst).vcpu H = some L ∧
    vmemCopy conf.dmaMalloc vmemSrc vmemDst L.dma =
      some ({ vmemDst with vtcr := vmemSrc.vtcr, actlr := vmemSrc.actlr }, dma) ∧
    H' = ({ L with dma := dma }.setVmem dst
      { vmemDst with vtcr := vmemSrc.vtcr, actlr := vmemSrc.actlr }).setVmcb dst
        { L.vmcb dst with state := (L.vmcb src).state, type := (L.vmcb src).type }

/-- What `vm_copy` can do. -/
theorem vmCopy_cases {src dst : VmId} {regs : CoreRegs}
    (h : vmCopy conf src dst regs H = some H') :
    (H' = H ∧ (H.sys.vms src = none ∨ H.sys.vms dst = none)) ∨ Copies conf src dst regs H H' := by
  cases hsrc : H.sys.vms src with
  | none =>
      rw [vmCopy, hsrc] at h
      exact .inl ⟨(Option.some.inj h).symm, .inl rfl⟩
  | some vmemSrc =>
      cases hdst : H.sys.vms dst with
      | none =>
          rw [vmCopy, hsrc, hdst] at h
          exact .inl ⟨(Option.some.inj h).symm, .inr rfl⟩
      | some vmemDst =>
          rw [vmCopy, hsrc, hdst] at h
          obtain ⟨L, hL, h⟩ := Option.bind_eq_some_iff.mp h
          obtain ⟨⟨vmem, dma⟩, hcopy, h⟩ := Option.bind_eq_some_iff.mp h
          obtain rfl := vmemCopy_vmem hcopy
          exact .inr ⟨vmemSrc, vmemDst, L, dma, hsrc, hdst, hL, hcopy, (Option.some.inj h).symm⟩

theorem sameFrame_setDma (dma : Dma) : SameFrame H { H with dma := dma } :=
  ⟨⟨fun _ => rfl, fun _ => rfl, fun _ => rfl, fun _ => rfl, rfl, rfl, rfl⟩, rfl⟩

theorem sameFrame_vmCopy {src dst : VmId} {regs : CoreRegs}
    (h : vmCopy conf src dst regs H = some H') : SameFrame H H' := by
  rcases vmCopy_cases h with ⟨rfl, -⟩ | ⟨vmemSrc, vmemDst, L, dma, -, hdst, hL, -, rfl⟩
  · exact .refl _
  · have hcopy := (sameFrame_copyVcpus hL).trans (sameFrame_setDma dma)
    have hlive : ({ L with dma := dma }.sys.vms dst).isSome = true := by
      rw [hcopy.vms, hdst, Option.isSome_some]
    exact hcopy.trans ((sameFrame_setVmem hlive).trans (sameFrame_setVmcb rfl))

theorem sameFrame_kmusSnapshot {cpu : PcpuId} {normalId kmusId : VmId} {regs : CoreRegs}
    (h : kmusSnapshot conf cpu normalId kmusId regs H = some H') : SameFrame H H' := by
  obtain ⟨vmem, -, h⟩ := Option.bind_eq_some_iff.mp h
  obtain ⟨H₁, h₁, h⟩ := Option.bind_eq_some_iff.mp h
  refine (run_invariant (I := SameFrame H) h₁ (.refl H) ?_).trans (sameFrame_vmCopy h)
  intro J v _ J' hsame hJ
  obtain ⟨vcpu, hvcpu, rfl⟩ := Option.map_eq_some_iff.mp hJ
  exact hsame.trans (sameFrame_setVcpu hvcpu rfl)

theorem sameFrame_makeNormal {kmusId : VmId} (h : makeNormal kmusId H = some H') :
    SameFrame H H' := by
  obtain ⟨vmem, -, h⟩ := Option.bind_eq_some_iff.mp h
  obtain ⟨v, -, h⟩ := Option.bind_eq_some_iff.mp h
  obtain ⟨vcpu, -, h⟩ := Option.bind_eq_some_iff.mp h
  rw [← Option.some.inj h]
  exact sameFrame_setLife rfl

theorem moves_activate {pc : U32} {m : VmId} {v : VcpuId} (howns : H.Owns m v)
    (h : activate conf pc H v = some H') : Moves conf H H' ∧ SameVms H H' := by
  obtain ⟨vcpu, hv, h⟩ := Option.bind_eq_some_iff.mp h
  set vcpu' := { vcpu with
    regs := { vcpu.regs with coreRegs := { vcpu.regs.coreRegs with pc := pc } } } with hvcpu'
  have hset : SameFrame H (H.setVcpu v vcpu') := sameFrame_setVcpu hv rfl
  have hself : (H.setVcpu v vcpu').sys.vcpus v = some vcpu' :=
    (setVcpu_vcpus H v v _).trans (if_pos rfl)
  rw [← Option.some.inj h]
  exact ⟨.tail (.single (.same hset)) (.attach hself howns (.inr rfl)), rfl, rfl⟩

theorem isSome_of_currentVm {cpu : PcpuId} {m : VmId} (h : H.currentVm cpu = some m) :
    (H.sys.vms m).isSome = true ∧ (H.sys.sched cpu).currentVm = some m := by
  obtain ⟨hm, hlive⟩ := Option.filter_eq_some_iff.mp h
  exact ⟨hlive, hm⟩

theorem moves_emulatePsciCpuOn {cpu : PcpuId} {regs : CoreRegs} {r : Hypervisor gPolicy × ℤ}
    (h : emulatePsciCpuOn conf cpu regs H = some r) : Moves conf H r.1 := by
  obtain ⟨m, hm, h⟩ := Option.bind_eq_some_iff.mp h
  split at h
  · rw [← Option.some.inj h]
  · rename_i v hv
    obtain ⟨H₁, h₁, rfl⟩ := Option.map_eq_some_iff.mp h
    exact (moves_activate ⟨(isSome_of_currentVm hm).1, List.mem_of_getElem? hv⟩ h₁).1

theorem moves_sysFlagsset {cpu : PcpuId} {pc : U32} (h : sysFlagsset conf cpu pc H = some H') :
    Moves conf H H' := by
  obtain ⟨m, hm, h⟩ := Option.bind_eq_some_iff.mp h
  exact (moves_run (fun v hv => ⟨(isSome_of_currentVm hm).1, List.mem_of_mem_tail hv⟩)
    (fun J v J' howns hJ => moves_activate howns hJ) h).1

/-- A call of the policy, the choice of the next processor and the switch to it. -/
theorem schedules_performSwitch {cpu : PcpuId} {now expiration : U64} {regs regs' : Option CoreRegs}
    {r : Scheduler (gPolicy cpu).EntryData (gPolicy cpu).SchedData × VcpuId × U64}
    (hr : ((gPolicy cpu).policy conf.sched).doSchedule now expiration (H.sys.sched cpu) = some r)
    {σ : System gPolicy}
    (h : schedPerformSwitch conf.numLr cpu regs (H.sys.setSched cpu (switchTo r.2.1 r.1)) =
      some (σ, regs')) : Schedules conf cpu H { H with sys := σ } := by
  have hspec := schedPerformSwitch_spec h
  have hself : (H.sys.setSched cpu (switchTo r.2.1 r.1)).sched cpu = switchTo r.2.1 r.1 :=
    Function.update_self ..
  have hentries := hspec.entries
  have hcurrent := hspec.current
  rw [hself] at hentries hcurrent
  refine ⟨⟨hspec.place, fun m => congrArg (fun vms => (vms m).isSome) hspec.vms, fun _ => rfl,
    fun _ => rfl, rfl, rfl, rfl⟩, fun q hq => ?_, now, expiration, r, hr, ?_, ?_⟩
  · exact (hspec.others q hq).trans (Function.update_of_ne hq ..)
  · exact ⟨hentries.entry, hentries.standby, hentries.inflight, hentries.nrEntries, hentries.sd⟩
  · exact hcurrent.imp_left fun hsame =>
      ⟨hsame.currentVcpuid, hsame.currentVcpu, hsame.currentVm⟩

theorem moves_startTurn {cpu : PcpuId} {now expiration : U64}
    (h : startTurn conf cpu now expiration H = some H') : Moves conf H H' := by
  obtain ⟨⟨s, next, expiration'⟩, hr, h⟩ := Option.bind_eq_some_iff.mp h
  dsimp only at h
  by_cases hnext : next = vcpuidInvalid
  · rw [if_pos hnext] at h
    rw [← Option.some.inj h]
    have hself := setSched_self H cpu s
    have hschedules : Schedules conf cpu H (H.setSched cpu s) := by
      refine ⟨⟨fun _ => rfl, fun _ => rfl, fun _ => rfl, fun _ => rfl, rfl, rfl, rfl⟩,
        fun q hq => setSched_of_ne H hq s, now, expiration, _, hr, ?_, .inl ?_⟩
      · rw [hself]
        exact ⟨rfl, rfl, rfl, rfl, rfl⟩
      · rw [hself]
        exact ⟨rfl, rfl, rfl⟩
    exact .single (.schedule hschedules)
  · rw [if_neg hnext] at h
    obtain ⟨T₁, h₁, h⟩ := Option.bind_eq_some_iff.mp h
    obtain ⟨T₂, h₂, h⟩ := Option.bind_eq_some_iff.mp h
    obtain ⟨⟨σ, regs⟩, hσ, h⟩ := Option.bind_eq_some_iff.mp h
    rw [← Option.some.inj h]
    have hregister : Move conf H { H with timers := T₁ } :=
      .registerTimer h₁ fun v hv => TimerRef.noConfusion hv
    have hset : Move conf { H with timers := T₁ } { H with timers := T₂ } :=
      .timers fun R hR => hR.set h₂
    have hschedule : Move conf { H with timers := T₂ } { H with sys := σ, timers := T₂ } :=
      .schedule (schedules_performSwitch (H := { H with timers := T₂ }) hr hσ)
    exact ((Relation.ReflTransGen.single hregister).tail hset).tail hschedule

theorem schedules_doScheduleTimer {cpu : PcpuId} {now expiration : U64} {regs : Option CoreRegs}
    {r : U64 × Hypervisor gPolicy × Option CoreRegs}
    (h : doScheduleTimer conf cpu now expiration regs H = some r) : Schedules conf cpu H r.2.1 := by
  obtain ⟨q, hq, h⟩ := Option.bind_eq_some_iff.mp h
  obtain ⟨⟨σ, regs'⟩, hσ, h⟩ := Option.bind_eq_some_iff.mp h
  rw [← Option.some.inj h]
  exact schedules_performSwitch hq hσ

theorem virqInject_place (numLr : ℕ) (running : Bool) (vcpu : Vcpu) (virq pirq : U32) (hw : U8)
    (g : Gich) : (virqInject numLr running vcpu virq pirq hw g).2.1.place = vcpu.place := by
  have henqueue : ∀ lrEntry, (enqueue lrEntry vcpu).2.place = vcpu.place := by
    intro lrEntry
    rw [enqueue]
    split <;> rfl
  rw [KHypervisor.virqInject]
  split
  · dsimp only
    split
    · exact henqueue _
    · rfl
  · exact henqueue _

theorem sameFrame_virqInject {cpu : PcpuId} {v : VcpuId} {virq pirq : U32} {hw : U8}
    (h : H.virqInject conf cpu v virq pirq hw = some H') : SameFrame H H' := by
  obtain ⟨vcpu, hv, rfl⟩ := Option.map_eq_some_iff.mp h
  have hplace := virqInject_place conf.numLr (decide ((H.sys.sched cpu).currentVcpuid = v)) vcpu
    virq pirq hw (H.sys.hw cpu).gich
  exact (sameFrame_setVcpu hv hplace).trans (sameFrame_setMachine ⟨rfl, fun _ => rfl⟩)

/-- A callback makes one move, and leaves the timers to the interrupt handler. -/
theorem move_timerCallback {cpu : PcpuId} {now : TimerRef → U64} {t : TimerRef} {expiration : U64}
    {u : Hypervisor gPolicy × Option CoreRegs} {r : U64 × Hypervisor gPolicy × Option CoreRegs}
    (h : timerCallback conf cpu now t expiration u = some r) :
    Move conf u.1 r.2.1 ∧ r.2.1.timers = u.1.timers := by
  obtain ⟨J, regs⟩ := u
  cases t with
  | vtimer v =>
      obtain ⟨vcpu, -, h⟩ := Option.bind_eq_some_iff.mp h
      generalize vdevTimerHandler conf.timer expiration (J.life v).vtimer = x at h
      obtain ⟨expiration', vtimer, forward⟩ := x
      obtain ⟨J', hJ', rfl⟩ := Option.map_eq_some_iff.mp h
      have hlife : SameFrame J (J.setLife v { J.life v with vtimer := vtimer }) :=
        sameFrame_setLife rfl
      have hsame : SameFrame J J' := by
        split at hJ'
        · exact hlife.trans (sameFrame_virqInject hJ')
        · rw [← Option.some.inj hJ']
          exact hlife
      exact ⟨.same hsame, hsame.timers⟩
  | sched p =>
      have hsched := schedules_doScheduleTimer h
      exact ⟨.schedule hsched, hsched.timers⟩

theorem moves_timerIrqHandler {cpu : PcpuId} {count : U64} {now : TimerRef → U64}
    {regs : Option CoreRegs} (h : H.timerIrqHandler conf cpu count now regs = some H') :
    Moves conf H H' := by
  obtain ⟨⟨T, J, regs'⟩, hirq, rfl⟩ := Option.map_eq_some_iff.mp h
  obtain ⟨hactive, hinactive, hmoves, htimers⟩ := timerIrqHandler_links
    (P := fun u => Moves conf H u.1 ∧ u.1.timers = H.timers) (fun t e u r hu hr => by
      obtain ⟨hmove, hsame⟩ := move_timerCallback hr
      exact ⟨hu.1.tail hmove, hsame.trans hu.2⟩) ⟨.refl, rfl⟩ hirq
  refine hmoves.tail (.timers fun R hR => ?_)
  rw [htimers] at hR
  exact hR.of_eq hactive hinactive

theorem moves_timerAccess {A : Type} {cpu : PcpuId} {v : VcpuId} {access : VdevTimerAccess A}
    (h : H.timerAccess conf cpu v access = some H') : Moves conf H H' := by
  have hlife : Move conf H (H.setLife v { H.life v with vtimer := access.v }) :=
    .same (sameFrame_setLife rfl)
  rw [timerAccess] at h
  cases hexp : access.expiration with
  | none =>
      simp only [hexp, Option.some.injEq] at h
      rw [← h]
      exact .single hlife
  | some expiration =>
      simp only [hexp] at h
      obtain ⟨T, hT, rfl⟩ := Option.map_eq_some_iff.mp h
      exact (Relation.ReflTransGen.single hlife).tail (.timers fun R hR => hR.set hT)

/-- Every call but `vm_delete` is a sequence of moves. -/
theorem hvStep_moves {e : HvEvent} (he : ∀ m, e ≠ .vmDelete m) (hstep : hvStep conf H e = some H') :
    Moves conf H H' := by
  have h := hvCall_of_hvStep hstep
  cases e with
  | vmCreate numVcpus type alloc =>
      rw [← Option.some.inj h]
      exact .single (.create (creates_vmCreate conf numVcpus type alloc H))
  | vmInit cpu syscounter m =>
      obtain ⟨r, hr, rfl⟩ := Option.map_eq_some_iff.mp h
      exact moves_vmInit hr
  | vmStart m =>
      obtain ⟨r, hr, rfl⟩ := Option.map_eq_some_iff.mp h
      exact moves_vmStart hr
  | vmSuspend cpu m regs =>
      obtain ⟨r, hr, rfl⟩ := Option.map_eq_some_iff.mp h
      exact moves_vmSuspend hr
  | vmDelete m => exact absurd rfl (he m)
  | kmusSnapshot cpu normalId kmusId regs => exact .single (.same (sameFrame_kmusSnapshot h))
  | makeNormal kmusId => exact .single (.same (sameFrame_makeNormal h))
  | cpuOn cpu regs =>
      obtain ⟨r, hr, rfl⟩ := Option.map_eq_some_iff.mp h
      exact moves_emulatePsciCpuOn hr
  | flagsset cpu pc => exact moves_sysFlagsset h
  | schedStart cpu now expiration => exact moves_startTurn h
  | doSchedule cpu regs now expiration =>
      obtain ⟨r, hr, rfl⟩ := Option.map_eq_some_iff.mp h
      exact .single (.schedule (schedules_doScheduleTimer hr))
  | timerIrq cpu count now regs => exact moves_timerIrqHandler h
  | timerAccess32 cpu syscounter read what rt =>
      obtain ⟨v, -, h⟩ := Option.bind_eq_some_iff.mp h
      exact moves_timerAccess h
  | timerAccess64 cpu syscounter read what rt =>
      obtain ⟨v, -, h⟩ := Option.bind_eq_some_iff.mp h
      exact moves_timerAccess h
  | guest cpu g =>
      rw [← Option.some.inj h]
      exact .single (.same (sameFrame_setMachine ⟨rfl, fun _ => rfl⟩))

/-! ## Deletion -/

/-- What `vm_delete` does to a machine that is there. -/
structure Deletes (m : VmId) (H H' : Hypervisor gPolicy) : Prop where
  vms : H'.sys.vms = Function.update H.sys.vms m none
  vmcb : H'.vmcb = H.vmcb
  life : H'.life = H.life
  nrVcpus : H'.nrVcpus = H.nrVcpus
  vmCount : H'.vmCount = H.vmCount
  timers : H'.timers = H.timers.freeAll ((H.vmcb m).vcpu.map .vtimer)
  gone : ∀ v ∈ (H.vmcb m).vcpu, H'.sys.vcpus v = none
  other : ∀ v ∉ (H.vmcb m).vcpu, H'.sys.vcpus v = H.sys.vcpus v
  sched : ∀ p, Unlists (H.vmcb m).vcpu (H.sys.sched p) (H'.sys.sched p)

/-- All virtual processors of the machine are registered with their schedulers. -/
def Hypervisor.AllRegistered (conf : HvConf) (H : Hypervisor gPolicy) (m : VmId) : Prop :=
  ∀ v ∈ (H.vmcb m).vcpu, (findEntry (H.sys.sched (conf.vcpuToPcpu v)) v).isSome = true

theorem Unlists.setSched {v : VcpuId} {p : PcpuId}
    {s : Scheduler (gPolicy p).EntryData (gPolicy p).SchedData}
    (h : Unlists [v] (H.sys.sched p) s) (q : PcpuId) :
    Unlists [v] (H.sys.sched q) ((H.setSched p s).sys.sched q) :=
  H.forall_setSched (P := fun q t => Unlists [v] (H.sys.sched q) t) h (fun _ _ => .refl _ _) q

theorem vmDelete_of_hvStep {m : VmId} (h : hvStep conf H (.vmDelete m) = some H') :
    ∃ r, vmDelete conf m H = some r ∧ r.1 = H' :=
  Option.map_eq_some_iff.mp (hvCall_of_hvStep h)

theorem vmDelete_spec {m : VmId} {r : Hypervisor gPolicy × Option VmcbState}
    (h : vmDelete conf m H = some r) :
    (H.sys.vms m = none ∧ r.1 = H) ∨
      (H.sys.vms m).isSome = true ∧ H.AllRegistered conf m ∧ Deletes m H r.1 := by
  rw [vmDelete] at h
  cases hm : H.sys.vms m with
  | none =>
      rw [hm] at h
      exact .inl ⟨rfl, by rw [← Option.some.inj h]⟩
  | some vmem =>
      rw [hm] at h
      obtain ⟨H', hrun, h⟩ := Option.bind_eq_some_iff.mp h
      obtain rfl := Option.some.inj h
      refine .inr ⟨rfl, ?_⟩
      set J := { H with sys := { H.sys with vms := Function.update H.sys.vms m none } } with hJ
      obtain ⟨hvms, hvmcb, hlife, hnr, hcount, htimers, hgone, hother, hsched, hfound⟩ :=
        run_induction
        (I := fun vs K => K.sys.vms = J.sys.vms ∧ K.vmcb = H.vmcb ∧ K.life = H.life ∧
          K.nrVcpus = H.nrVcpus ∧ K.vmCount = H.vmCount ∧
          K.timers = H.timers.freeAll (vs.map .vtimer) ∧
          (∀ v ∈ vs, K.sys.vcpus v = none) ∧ (∀ v ∉ vs, K.sys.vcpus v = H.sys.vcpus v) ∧
          (∀ p, Unlists vs (H.sys.sched p) (K.sys.sched p)) ∧
          ∀ v ∈ vs, (findEntry (H.sys.sched (conf.vcpuToPcpu v)) v).isSome = true)
        ⟨rfl, rfl, rfl, rfl, rfl, rfl, fun v hv => absurd hv List.not_mem_nil, fun _ _ => rfl,
          fun p => .refl _ _, fun v hv => absurd hv List.not_mem_nil⟩
          (fun vs v K K' _ hK hstep => by
        obtain ⟨hvms, hvmcb, hlife, hnr, hcount, htimers, hgone, hother, hsched, hfound⟩ := hK
        obtain ⟨vcpu, hvcpu, hstep⟩ := Option.bind_eq_some_iff.mp hstep
        obtain ⟨s, hs, hstep⟩ := Option.bind_eq_some_iff.mp hstep
        rw [← Option.some.inj hstep]
        have hunlists := unlists_schedVcpuUnregister hs
        have hfresh : v ∉ vs := fun hv => Option.some_ne_none _ (hvcpu.symm.trans (hgone v hv))
        obtain ⟨i, hi, -⟩ := Option.bind_eq_some_iff.mp hs
        refine ⟨hvms, hvmcb, hlife, hnr, hcount, ?_, fun w hw => ?_, fun w hw => ?_,
          fun p => ?_, fun w hw => ?_⟩
        · rw [List.map_append, List.map_singleton, freeAll_concat, ← htimers]
          rfl
        · by_cases hwv : w = v
          · subst hwv
            exact Function.update_self ..
          · refine (Function.update_of_ne hwv ..).trans (hgone w ?_)
            simpa [hwv] using hw
        · simp only [List.mem_append, List.mem_singleton, not_or] at hw
          exact (Function.update_of_ne hw.2 ..).trans (hother w hw.1)
        · exact ((hsched p).mono fun w hw => List.mem_append_left _ hw).trans
            ((hunlists.setSched p).mono fun w hw => List.mem_append_right _ hw)
        · rcases List.mem_append.mp hw with hw | hw
          · exact hfound w hw
          · rw [List.mem_singleton.mp hw, ← (hsched _).findEntry v hfresh, hi, Option.isSome_some])
          hrun
      exact ⟨hfound, hvms, hvmcb, hlife, hnr, hcount, htimers, hgone, hother, hsched⟩

/-- Different virtual processors that are there and registered can be deleted one after another. -/
theorem run_vcpuDelete_some {vs : List VcpuId} (hnodup : vs.Nodup)
    (hlive : ∀ v ∈ vs, (H.sys.vcpus v).isSome = true)
    (hfound : ∀ v ∈ vs, (findEntry (H.sys.sched (conf.vcpuToPcpu v)) v).isSome = true) :
    ∃ H', run (fun H v => vcpuDelete conf v H) H vs = some H' := by
  induction vs generalizing H with
  | nil => exact ⟨H, rfl⟩
  | cons v vs ih =>
      obtain ⟨hv, hvs⟩ := List.nodup_cons.mp hnodup
      obtain ⟨vcpu, hvcpu⟩ := Option.isSome_iff_exists.mp (hlive v List.mem_cons_self)
      obtain ⟨i, hi⟩ := Option.isSome_iff_exists.mp (hfound v List.mem_cons_self)
      obtain ⟨s, hs⟩ : ∃ s, schedVcpuUnregister v (H.sys.sched (conf.vcpuToPcpu v)) = some s :=
        ⟨_, by rw [schedVcpuUnregister, hi]; rfl⟩
      have hstep : vcpuDelete conf v H = some { H.setSched (conf.vcpuToPcpu v) s with
          sys := { (H.setSched (conf.vcpuToPcpu v) s).sys with
            vcpus := Function.update H.sys.vcpus v none }
          timers := H.timers.free (.vtimer v) } := by
        rw [vcpuDelete, hvcpu]
        simp only [Option.bind_eq_bind, Option.bind_some, hs]
        rfl
      have hunlists := unlists_schedVcpuUnregister hs
      rw [run_cons, hstep, Option.bind_some]
      refine ih hvs (fun w hw => ?_) fun w hw => ?_
      · have hne : w ≠ v := fun hwv => hv (hwv ▸ hw)
        exact (congrArg Option.isSome (Function.update_of_ne hne ..)).trans
          (hlive w (List.mem_cons_of_mem _ hw))
      · have hne : w ∉ [v] := fun hwv => hv (List.mem_singleton.mp hwv ▸ hw)
        exact (congrArg Option.isSome ((hunlists.setSched _).findEntry w hne)).trans
          (hfound w (List.mem_cons_of_mem _ hw))

/-- A machine whose virtual processors are registered can be deleted. -/
theorem vmDelete_some {m : VmId} (hm : (H.sys.vms m).isSome = true)
    (hnodup : (H.vmcb m).vcpu.Nodup)
    (hlive : ∀ v ∈ (H.vmcb m).vcpu, (H.sys.vcpus v).isSome = true)
    (hfound : H.AllRegistered conf m) : ∃ r, vmDelete conf m H = some r := by
  obtain ⟨vmem, hvmem⟩ := Option.isSome_iff_exists.mp hm
  obtain ⟨H', hH'⟩ : ∃ H', run (fun H v => vcpuDelete conf v H)
      { H with sys := { H.sys with vms := Function.update H.sys.vms m none } }
      (H.vmcb m).vcpu = some H' := run_vcpuDelete_some hnodup hlive hfound
  refine ⟨(H', some .undefined), ?_⟩
  rw [vmDelete, hvmem]
  exact Option.bind_eq_some_iff.mpr ⟨H', hH', rfl⟩

end KHypervisor
