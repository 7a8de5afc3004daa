import KHypervisor.Vm.GuestMemory
import KHypervisor.Vm.Residence

/-!
# The tables that guests are on

The hypervisor, the stores of its guests and the copies of the controller together. Whatever the
hypervisor does, a processor with a current virtual processor is on the table of that one's machine,
and the tables hold what the platform says; the only bytes that a call changes are those of the
tables (`MemoryInv.call`).
-/

namespace KHypervisor

open Run Hypervisor

variable {gPolicy : PcpuId → PolicyName} {conf : HvConf} {H H' H'' : Hypervisor gPolicy} {n : ℕ}

/-! ## The machine -/

/-- A call of the hypervisor, a store by the guest on processor `cpu`, the copy of one byte by the
controller, or its interrupt. -/
inductive MemEvent
  | call (e : HvEvent)
  | store (cpu : PcpuId) (ipa : U32) (pa : BitVec 40) (value : U8)
  | copy (t : Transfer) (i : ℕ)
  | dmaIrq

def Transfer.source (t : Transfer) (i : ℕ) : BitVec 40 := physAddr (t.src + BitVec.ofNat 32 i)

def Transfer.target (t : Transfer) (i : ℕ) : BitVec 40 := physAddr (t.dst + BitVec.ofNat 32 i)

/-- The store of a guest, where the translation admits it. The controller copies the bytes of the
transfers that it started in any order, and perhaps more than once. -/
def memStep (conf : HvConf) (H : Hypervisor gPolicy) : MemEvent → Option (Hypervisor gPolicy)
  | .call e => hvStep conf H e
  | .store cpu ipa pa value =>
      if (H.sys.sched cpu).currentVcpuid ≠ vcpuidInvalid ∧
          Reaches H.mem.bytes (H.sys.hw cpu).regs ipa pa then
        some { H with mem := { H.mem with bytes := Function.update H.mem.bytes pa value } }
      else none
  | .copy t i =>
      if t ∈ H.dma.dmac.started ∧ i < t.byteCount.toNat then
        some { H with mem := { H.mem with
          bytes := Function.update H.mem.bytes (t.target i) (H.mem.bytes (t.source i)) } }
      else none
  | .dmaIrq =>
      (dmaIrqHandler conf.dmaMalloc ((gPolicy 0).policy conf.sched) H.dma (H.sys.sched 0)).map
        fun r => { H.setSched 0 r.2 with dma := r.1 }

/-- The memory of machine `m` fits into that of machine `k`, and is one that is copied as it is. -/
def Platform.CanCopy (p : Platform) (m k : VmId) : Prop :=
  4096 ∣ (p.vmConf m).vaOffsets.toNat ∧
    (p.vmConf m).vaOffsets.toNat ≤ (p.vmConf k).vaOffsets.toNat

instance (p : Platform) (m k : VmId) : Decidable (p.CanCopy m k) :=
  inferInstanceAs (Decidable (_ ∧ _))

/-- A machine beyond the `n` of the configuration is created, a processor suspends another machine
than its current one, a snapshot is taken that the backup has no room for or that the controller
does not copy as it is, or a copy ends. -/
def Oversteps (p : Platform) (n : ℕ) (H : Hypervisor gPolicy) : MemEvent → Prop
  | .call (.vmCreate _ _ _) => n ≤ H.vmCount
  | .call (.vmSuspend cpu m _) => (H.sys.sched cpu).currentVcpuid ≠ vcpuidInvalid ∧
      (H.sys.sched cpu).currentVm ≠ some m
  | .call (.kmusSnapshot _ m k _) => ¬ p.CanCopy m k
  | .dmaIrq => H.dma.transQueue.isEmpty = true
  | _ => False

instance (p : Platform) (n : ℕ) (H : Hypervisor gPolicy) : DecidablePred (Oversteps p n H)
  | .call (.vmCreate _ _ _) => inferInstanceAs (Decidable (n ≤ H.vmCount))
  | .call (.vmSuspend cpu m _) =>
      inferInstanceAs (Decidable ((H.sys.sched cpu).currentVcpuid ≠ vcpuidInvalid ∧
        (H.sys.sched cpu).currentVm ≠ some m))
  | .call (.kmusSnapshot _ m k _) => inferInstanceAs (Decidable (¬ p.CanCopy m k))
  | .dmaIrq => inferInstanceAs (Decidable (H.dma.transQueue.isEmpty = true))
  | .call (.vmInit ..) | .call (.vmStart ..) | .call (.vmDelete ..) | .call (.makeNormal ..)
  | .call (.cpuOn ..) | .call (.flagsset ..) | .call (.schedStart ..) | .call (.doSchedule ..)
  | .call (.timerIrq ..) | .call (.timerAccess32 ..) | .call (.timerAccess64 ..)
  | .call (.guest ..) | .store .. | .copy .. => .isFalse id

/-! ## The invariant -/

/-- The descriptor of the machine's memory is that of `vmem_create`, but for the two registers that
`vmem_init` saves. -/
def VmemOf (p : Platform) (m : VmId) (vmem : Vmem) : Prop :=
  ∀ mem, (vmemCreate p vmem m mem).1 = vmem

/-- Every machine has its table, and every processor with a current virtual processor is on the
table of the current machine, which may have been deleted. -/
structure MemoryInv (conf : HvConf) (n : ℕ) (H : Hypervisor gPolicy) : Prop where
  count : H.vmCount ≤ n
  machine : ∀ m vmem, H.sys.vms m = some vmem → m < H.vmCount ∧ VmemOf conf.platform m vmem ∧
    ∃ k, TableHolds conf.platform m k H.mem
  fresh : ∀ m < n, H.vmCount ≤ m → TableFresh conf.platform m H.mem
  running : ∀ cpu, (H.sys.sched cpu).currentVcpuid ≠ vcpuidInvalid →
    ∃ m < n, (H.sys.sched cpu).currentVm = some m ∧ OnTable conf.platform m (H.sys.hw cpu).regs ∧
      ∃ k, TableHolds conf.platform m k H.mem

/-! ## Calls that leave the memory alone -/

structure KeepsMachine {ED SD : Type} (s s' : Scheduler ED SD) : Prop where
  currentVm : s'.currentVm = s.currentVm
  currentVcpuid : s'.currentVcpuid = s.currentVcpuid ∨ s'.currentVcpuid = vcpuidInvalid

theorem KeepsMachine.refl {ED SD : Type} (s : Scheduler ED SD) : KeepsMachine s s :=
  ⟨rfl, .inl rfl⟩

theorem KeepsMachine.trans {ED SD : Type} {s s' s'' : Scheduler ED SD} (h : KeepsMachine s s')
    (h' : KeepsMachine s' s'') : KeepsMachine s s'' := by
  refine ⟨h'.currentVm.trans h.currentVm, ?_⟩
  rcases h'.currentVcpuid with hsame | hinvalid
  · rw [hsame]
    exact h.currentVcpuid
  · exact .inr hinvalid

structure SameTable (regs regs' : Registers) : Prop where
  vttbr : regs'.cp64 .vttbr = regs.cp64 .vttbr
  hcr : regs'.cp32 .hcr = regs.cp32 .hcr

/-- Neither the memory nor the controller that copies it has changed. -/
structure SameMem (H H' : Hypervisor gPolicy) : Prop where
  mem : H'.mem = H.mem
  dma : H'.dma = H.dma

theorem SameMem.refl (H : Hypervisor gPolicy) : SameMem H H := ⟨rfl, rfl⟩

theorem SameMem.trans (h : SameMem H H') (h' : SameMem H' H'') : SameMem H H'' :=
  ⟨h'.mem.trans h.mem, h'.dma.trans h.dma⟩

/-- Nor has the table of a processor. Machines may be gone, and processors may have stopped. -/
structure Quiet (H H' : Hypervisor gPolicy) : Prop extends SameMem H H' where
  vmCount : H'.vmCount = H.vmCount
  vms : ∀ m vmem', H'.sys.vms m = some vmem' → ∃ vmem, H.sys.vms m = some vmem ∧
    ∀ p, VmemOf p m vmem → VmemOf p m vmem'
  current : ∀ cpu, KeepsMachine (H.sys.sched cpu) (H'.sys.sched cpu)
  regs : ∀ cpu, (H'.sys.sched cpu).currentVcpuid ≠ vcpuidInvalid →
    SameTable (H.sys.hw cpu).regs (H'.sys.hw cpu).regs

theorem Quiet.trans (h : Quiet H H') (h' : Quiet H' H'') : Quiet H H'' where
  toSameMem := h.toSameMem.trans h'.toSameMem
  vmCount := h'.vmCount.trans h.vmCount
  vms m vmem'' hm := by
    obtain ⟨vmem', hm', hof'⟩ := h'.vms m vmem'' hm
    obtain ⟨vmem, hm, hof⟩ := h.vms m vmem' hm'
    exact ⟨vmem, hm, fun p hp => hof' p (hof p hp)⟩
  current cpu := (h.current cpu).trans (h'.current cpu)
  regs cpu hvalid := by
    have hregs' := h'.regs cpu hvalid
    rw [(h'.current cpu).currentVcpuid.resolve_right hvalid] at hvalid
    have hregs := h.regs cpu hvalid
    exact ⟨hregs'.vttbr.trans hregs.vttbr, hregs'.hcr.trans hregs.hcr⟩

theorem quiet_of_eq (hmem : SameMem H H') (hcount : H'.vmCount = H.vmCount)
    (hvms : H'.sys.vms = H.sys.vms) (hhw : H'.sys.hw = H.sys.hw)
    (hsched : H'.sys.sched = H.sys.sched) : Quiet H H' where
  toSameMem := hmem
  vmCount := hcount
  vms m vmem hm := ⟨vmem, by rwa [← hvms], fun _ h => h⟩
  current _ := by
    rw [hsched]
    exact .refl _
  regs _ _ := by
    rw [hhw]
    exact ⟨rfl, rfl⟩

theorem Quiet.refl (H : Hypervisor gPolicy) : Quiet H H := quiet_of_eq ⟨rfl, rfl⟩ rfl rfl rfl rfl

theorem quiet_setVcpu (v : VcpuId) (vcpu : Vcpu) : Quiet H (H.setVcpu v vcpu) :=
  quiet_of_eq ⟨rfl, rfl⟩ rfl rfl rfl rfl

theorem quiet_setLife (v : VcpuId) (life : VcpuLife) : Quiet H (H.setLife v life) :=
  quiet_of_eq ⟨rfl, rfl⟩ rfl rfl rfl rfl

theorem quiet_setVmcb (m : VmId) (vm : Vmcb) : Quiet H (H.setVmcb m vm) :=
  quiet_of_eq ⟨rfl, rfl⟩ rfl rfl rfl rfl

theorem quiet_timers (T : Timers) : Quiet H { H with timers := T } :=
  quiet_of_eq ⟨rfl, rfl⟩ rfl rfl rfl rfl

theorem quiet_setSched {p : PcpuId} {s : Scheduler (gPolicy p).EntryData (gPolicy p).SchedData}
    (hs : KeepsMachine (H.sys.sched p) s) : Quiet H (H.setSched p s) where
  toSameMem := ⟨rfl, rfl⟩
  vmCount := rfl
  vms _ vmem hm := ⟨vmem, hm, fun _ h => h⟩
  regs _ _ := ⟨rfl, rfl⟩
  current := H.forall_setSched (P := fun q t => KeepsMachine (H.sys.sched q) t) hs
    fun _ _ => .refl _

theorem quiet_setMachine {cpu : PcpuId} {mach : Machine} (hvms : mach.vms = H.sys.vms)
    (hregs : SameTable (H.sys.hw cpu).regs mach.regs) : Quiet H (H.setMachine cpu mach) where
  toSameMem := ⟨rfl, rfl⟩
  vmCount := rfl
  vms m vmem hm := ⟨vmem, by rwa [← hvms], fun _ h => h⟩
  current _ := .refl _
  regs q _ := by
    by_cases hq : q = cpu
    · rw [hq, setMachine_hw]
      exact hregs
    · have hhw : (H.setMachine cpu mach).sys.hw q = H.sys.hw q := Function.update_of_ne hq ..
      rw [hhw]
      exact ⟨rfl, rfl⟩

theorem quiet_setVmem {m : VmId} {vmem vmem' : Vmem} (hm : H.sys.vms m = some vmem)
    (hof : ∀ p, VmemOf p m vmem → VmemOf p m vmem') : Quiet H (H.setVmem m vmem') where
  toSameMem := ⟨rfl, rfl⟩
  vmCount := rfl
  vms m' vmem'' hm' := by
    rw [setVmem_vms] at hm'
    split at hm'
    · rename_i heq
      subst heq
      obtain rfl := Option.some.inj hm'
      exact ⟨vmem, hm, hof⟩
    · exact ⟨vmem'', hm', fun _ h => h⟩
  current _ := .refl _
  regs _ _ := ⟨rfl, rfl⟩

theorem quiet_run {f : Hypervisor gPolicy → VcpuId → Option (Hypervisor gPolicy)}
    {vs : List VcpuId} (hf : ∀ J v J', f J v = some J' → Quiet J J') (h : run f H vs = some H') :
    Quiet H H' :=
  run_invariant (I := Quiet H) h (.refl H) fun J v _ J' hJ hstep => hJ.trans (hf J v J' hstep)

theorem quiet_attach (v : VcpuId) (p : PcpuId) : Quiet H (H.attach conf v p) := by
  refine quiet_setSched ?_
  rcases ((gPolicy p).spec conf.sched).attach_cases v p (H.sys.sched p) with
    ⟨hsame, -⟩ | ⟨i, -, -, hcurrent⟩
  · rw [hsame]
    exact .refl _
  · exact ⟨hcurrent.currentVm, .inl hcurrent.currentVcpuid⟩

theorem quiet_vmInitVcpu {cpu : PcpuId} {syscounter : VcpuId → U64} {m : VmId} {v : VcpuId}
    (h : vmInitVcpu conf cpu syscounter m H v = some H') : Quiet H H' := by
  obtain ⟨J, hJ, h⟩ := Option.bind_eq_some_iff.mp h
  obtain ⟨vcpu, -, h⟩ := Option.bind_eq_some_iff.mp h
  obtain ⟨wcpu, -, hJ⟩ := Option.bind_eq_some_iff.mp hJ
  obtain ⟨T, -, hJ⟩ := Option.bind_eq_some_iff.mp hJ
  have hinit : Quiet H J := by
    rw [← Option.some.inj hJ]
    exact ⟨⟨rfl, rfl⟩, rfl, fun m vmem hm => ⟨vmem, hm, fun _ h => h⟩,
      H.forall_setSched (P := fun q t => KeepsMachine (H.sys.sched q) t) ⟨rfl, .inl rfl⟩
        fun _ _ => .refl _, fun _ _ => ⟨rfl, rfl⟩⟩
  rw [← Option.some.inj h]
  split
  · exact hinit.trans (quiet_setVcpu v _)
  · exact hinit

theorem quiet_vmStart {m : VmId} {r : Hypervisor gPolicy × Option VmcbState}
    (h : vmStart conf m H = some r) : Quiet H r.1 := by
  rw [vmStart] at h
  split at h
  · rw [← Option.some.inj h]
    exact .refl H
  · obtain ⟨J, hJ, h⟩ := Option.bind_eq_some_iff.mp h
    rw [← Option.some.inj h]
    refine Quiet.trans (quiet_run (fun K v K' hK => ?_) hJ) (quiet_setVmcb m _)
    obtain ⟨vcpu, -, hK⟩ := Option.bind_eq_some_iff.mp hK
    split at hK
    · rw [← Option.some.inj hK]
      exact (quiet_attach v _).trans (quiet_setLife v _)
    · rw [← Option.some.inj hK]
      exact .refl K

theorem quiet_vcpuSuspend {cpu : PcpuId} {regs : Option CoreRegs} {v : VcpuId}
    (h : vcpuSuspend conf cpu regs v H = some H') : Quiet H H' := by
  obtain ⟨mach, hsave, h⟩ := Option.bind_eq_some_iff.mp h
  obtain ⟨s, hs, h⟩ := Option.bind_eq_some_iff.mp h
  obtain ⟨hguests, hregs⟩ := vcpuSave_eq_some hsave
  obtain ⟨i, -, hdetach⟩ := ((gPolicy _).spec conf.sched).detach_spec hs
  rw [← Option.some.inj h]
  have hsaved : Quiet H (H.setMachine cpu mach) := by
    refine quiet_setMachine hguests.vms ?_
    rw [hregs]
    exact ⟨rfl, rfl⟩
  exact hsaved.trans ((quiet_setSched ⟨hdetach.currentVm, hdetach.currentVcpuid⟩).trans
    (quiet_setLife v _))

theorem quiet_vmDelete {m : VmId} {r : Hypervisor gPolicy × Option VmcbState}
    (h : vmDelete conf m H = some r) : Quiet H r.1 := by
  rw [vmDelete] at h
  split at h
  · rw [← Option.some.inj h]
    exact .refl H
  · obtain ⟨J, hJ, h⟩ := Option.bind_eq_some_iff.mp h
    rw [← Option.some.inj h]
    have hgone : Quiet H
        { H with sys := { H.sys with vms := Function.update H.sys.vms m none } } :=
      ⟨⟨rfl, rfl⟩, rfl, fun m' vmem hm' => by
        have hm' : Function.update H.sys.vms m none m' = some vmem := hm'
        rw [Function.update_apply] at hm'
        split at hm'
        · exact absurd hm'.symm (Option.some_ne_none _)
        · exact ⟨vmem, hm', fun _ h => h⟩, fun _ => .refl _, fun _ _ => ⟨rfl, rfl⟩⟩
    refine hgone.trans (quiet_run (fun K v K' hK => ?_) hJ)
    obtain ⟨vcpu, -, hK⟩ := Option.bind_eq_some_iff.mp hK
    obtain ⟨s, hs, hK⟩ := Option.bind_eq_some_iff.mp hK
    have hunlists := unlists_schedVcpuUnregister hs
    rw [← Option.some.inj hK]
    exact (quiet_setSched ⟨hunlists.currentVm, .inl hunlists.currentVcpuid⟩).trans
      (quiet_of_eq ⟨rfl, rfl⟩ rfl rfl rfl rfl)

theorem VmemOf.copy {p : Platform} {m : VmId} {vmem : Vmem} (h : VmemOf p m vmem)
    (vtcr actlr : U32) : VmemOf p m { vmem with vtcr := vtcr, actlr := actlr } := fun mem =>
  congrArg (fun vmem : Vmem => { vmem with vtcr := vtcr, actlr := actlr }) (h mem)

theorem vmemOf_vmemCreate (p : Platform) (vmem : Vmem) (m : VmId) (mem : PhysMem) :
    VmemOf p m (vmemCreate p vmem m mem).1 := fun _ => by
  rw [vmemCreate, vmemCreate]

/-- Only the registers and the list registers of the copies have changed. -/
theorem copyVcpus_quiet {regs : CoreRegs} {vs ws : List VcpuId}
    (h : copyVcpus conf regs vs ws H = some H') :
    Quiet H H' ∧ H'.sys.vms = H.sys.vms := by
  induction vs generalizing ws H with
  | nil =>
      rw [copyVcpus] at h
      rw [← Option.some.inj h]
      exact ⟨.refl H, rfl⟩
  | cons v vs ih =>
      cases ws with
      | nil => simp [copyVcpus] at h
      | cons w ws =>
          obtain ⟨src, -, h⟩ := Option.bind_eq_some_iff.mp h
          obtain ⟨dst, -, h⟩ := Option.bind_eq_some_iff.mp h
          obtain ⟨hquiet, hvms⟩ := ih h
          exact ⟨(quiet_setVcpu w _).trans hquiet, hvms⟩

theorem quiet_snapshotVcpus {cpu : PcpuId} {regs : CoreRegs} {vs : List VcpuId}
    (h : run (snapshotVcpu conf cpu regs) H vs = some H') : Quiet H H' :=
  quiet_run (fun K v K' hK => by
    obtain ⟨vcpu, -, rfl⟩ := Option.map_eq_some_iff.mp hK
    exact quiet_setVcpu v _) h

theorem quiet_kmusSnapshot {cpu : PcpuId} {normalId kmusId : VmId} {regs : CoreRegs}
    (h : kmusSnapshot conf cpu normalId kmusId regs H = some H') :
    Quiet H { H' with dma := H.dma } := by
  obtain ⟨vmem, -, h⟩ := Option.bind_eq_some_iff.mp h
  obtain ⟨J, hJ, h⟩ := Option.bind_eq_some_iff.mp h
  have hsaved := quiet_snapshotVcpus hJ
  rcases vmCopy_cases h with ⟨rfl, -⟩ | ⟨vmemSrc, vmemDst, K, dma, -, hdst, hK, -, rfl⟩
  · rw [← hsaved.dma]
    exact hsaved
  · obtain ⟨hquiet, hvms⟩ := copyVcpus_quiet hK
    have hvmem : K.sys.vms kmusId = some vmemDst := by rw [hvms, hdst]
    have hcopied := (hsaved.trans hquiet).trans
      ((quiet_setVmem hvmem fun p hp => hp.copy vmemSrc.vtcr vmemSrc.actlr).trans
        (quiet_setVmcb kmusId
          { K.vmcb kmusId with state := (K.vmcb normalId).state, type := (K.vmcb normalId).type }))
    exact ⟨⟨hcopied.mem, rfl⟩, hcopied.vmCount, hcopied.vms, hcopied.current, hcopied.regs⟩

theorem quiet_activate {pc : U32} {v : VcpuId} (h : activate conf pc H v = some H') :
    Quiet H H' := by
  obtain ⟨vcpu, -, h⟩ := Option.bind_eq_some_iff.mp h
  rw [← Option.some.inj h]
  exact (quiet_setVcpu v _).trans ((quiet_attach v _).trans (quiet_setLife v _))

theorem quiet_timerAccess {A : Type} {cpu : PcpuId} {v : VcpuId} {access : VdevTimerAccess A}
    (h : H.timerAccess conf cpu v access = some H') : Quiet H H' := by
  rw [timerAccess] at h
  cases hexp : access.expiration with
  | none =>
      simp only [hexp, Option.some.injEq] at h
      rw [← h]
      exact quiet_setLife v _
  | some expiration =>
      simp only [hexp] at h
      obtain ⟨T, -, rfl⟩ := Option.map_eq_some_iff.mp h
      exact (quiet_setLife v _).trans (quiet_timers T)

theorem quiet_virqInject {cpu : PcpuId} {v : VcpuId} {virq pirq : U32} {hw : U8}
    (h : H.virqInject conf cpu v virq pirq hw = some H') : Quiet H H' := by
  obtain ⟨vcpu, -, rfl⟩ := Option.map_eq_some_iff.mp h
  exact (quiet_setVcpu v _).trans (quiet_setMachine rfl ⟨rfl, rfl⟩)

/-! ## The invariant -/

theorem MemoryInv.quiet (h : MemoryInv conf n H) (hquiet : Quiet H H') : MemoryInv conf n H' := by
  refine ⟨hquiet.vmCount.trans_le h.count, fun m vmem' hm' => ?_, fun m hm hcount => ?_,
    fun cpu hvalid => ?_⟩
  · obtain ⟨vmem, hm, hof⟩ := hquiet.vms m vmem' hm'
    obtain ⟨hlt, hvmem, htable⟩ := h.machine m vmem hm
    rw [hquiet.vmCount, hquiet.mem]
    exact ⟨hlt, hof _ hvmem, htable⟩
  · rw [hquiet.mem]
    exact h.fresh m hm (hquiet.vmCount.ge.trans hcount)
  · have hregs := hquiet.regs cpu hvalid
    obtain ⟨hvm, hid⟩ := hquiet.current cpu
    rw [hid.resolve_right hvalid] at hvalid
    obtain ⟨m, hm, hcurrent, hon, htable⟩ := h.running cpu hvalid
    rw [hquiet.mem]
    exact ⟨m, hm, hvm.trans hcurrent, ⟨hregs.vttbr.trans hon.vttbr, by rw [hregs.hcr, hon.hcr]⟩,
      htable⟩

theorem MemoryInv.setMem (h : MemoryInv conf n H) {mem : PhysMem}
    (hholds : ∀ m < n, ∀ k, TableHolds conf.platform m k H.mem →
      ∃ k, TableHolds conf.platform m k mem)
    (hfresh : ∀ m < n, H.vmCount ≤ m → TableFresh conf.platform m H.mem →
      TableFresh conf.platform m mem) : MemoryInv conf n { H with mem := mem } := by
  refine ⟨h.count, fun m vmem hm => ?_, fun m hm hcount => hfresh m hm hcount (h.fresh m hm hcount),
    fun cpu hvalid => ?_⟩
  · obtain ⟨hlt, hvmem, k, htable⟩ := h.machine m vmem hm
    exact ⟨hlt, hvmem, hholds m (hlt.trans_le h.count) k htable⟩
  · obtain ⟨m, hm, hcurrent, hon, k, htable⟩ := h.running cpu hvalid
    exact ⟨m, hm, hcurrent, hon, hholds m hm k htable⟩

theorem MemoryInv.setVmem (h : MemoryInv conf n H) {m : VmId} {vmem : Vmem} (hm : m < H.vmCount)
    (hvmem : VmemOf conf.platform m vmem) (htable : ∃ k, TableHolds conf.platform m k H.mem) :
    MemoryInv conf n (H.setVmem m vmem) := by
  refine ⟨h.count, fun m' vmem' hm' => ?_, h.fresh, h.running⟩
  rw [setVmem_vms] at hm'
  split at hm'
  · rename_i heq
    subst heq
    rw [← Option.some.inj hm']
    exact ⟨hm, hvmem, htable⟩
  · exact h.machine m' vmem' hm'

/-! ## Switches -/

/-- A switch is to the table of the machine of the virtual processor that it selects, or that one
belongs to the same machine as the one before. -/
theorem doContextSwitch_cases {numLr : ℕ} {c v : VcpuId} {frame frame' : Option CoreRegs}
    {s s' : Machine} (h : doContextSwitch numLr c v frame s = some (s', frame')) :
    SameGuests s s' ∧ (s'.OnVmOf v ∨
      c ≠ vcpuidInvalid ∧ s.vmidOf c = s.vmidOf v ∧ SameStageTwo s.regs s'.regs) := by
  obtain ⟨next, hnext, h⟩ := Option.bind_eq_some_iff.mp h
  have hv : s.vmidOf v = some next.vmid := by rw [Machine.vmidOf, hnext, Option.map_some]
  by_cases hc : c = vcpuidInvalid
  · rw [if_pos hc] at h
    exact (onVmOf_restore hv h).imp_right .inl
  · rw [if_neg hc] at h
    obtain ⟨current, hcurrent, h⟩ := Option.bind_eq_some_iff.mp h
    obtain ⟨mid, hmid, h⟩ := Option.bind_eq_some_iff.mp h
    obtain ⟨hguests, hregs⟩ := vcpuSave_eq_some hmid
    by_cases hvm : current.vmid ≠ next.vmid
    · rw [if_pos hvm] at h
      have hsave : SameGuests s (vmSave current.vmid mid) := ⟨hguests.vms, hguests.vmidOf⟩
      obtain ⟨hguests', hon⟩ := onVmOf_restore (by rw [hsave.vmidOf, hv]) h
      exact ⟨hsave.trans hguests', .inl hon⟩
    · rw [if_neg hvm] at h
      obtain ⟨hguests', hsame⟩ := vcpuRestore_eq_some h
      rw [hregs] at hsame
      refine ⟨hguests.trans hguests', .inr ⟨hc, ?_, hsame⟩⟩
      rw [hv, Machine.vmidOf, hcurrent, Option.map_some, not_not.mp hvm]

theorem VmemOf.dram {p : Platform} {m : VmId} {vmem : Vmem} (h : VmemOf p m vmem) :
    vmem.dram.pa = (p.vmConf m).paStart ∧ vmem.dram.size = (p.vmConf m).vaOffsets := by
  rw [← h ⟨fun _ => 0, []⟩]
  exact ⟨rfl, rfl⟩

theorem VmemOf.vttbr {p : Platform} {m : VmId} {vmem : Vmem} (h : VmemOf p m vmem) :
    vmem.vttbr = vttbrOf m (tableBase p m) := by
  rw [← h ⟨fun _ => 0, []⟩, vmemCreate_vttbr]

/-- A switch to a virtual processor leaves the processor on the table of that one's machine. -/
theorem MemoryInv.onTable_of_switch (h : MemoryInv conf n H) {cpu : PcpuId} {v : VcpuId} {m : VmId}
    {frame frame' : Option CoreRegs} {mach : Machine}
    (hmachine : (H.sys.sched cpu).currentVcpuid ≠ vcpuidInvalid → ∀ m,
      H.sys.vmidOf (H.sys.sched cpu).currentVcpuid = some m →
      (H.sys.sched cpu).currentVm = some m)
    (hm : H.sys.vmidOf v = some m)
    (hmach : doContextSwitch conf.numLr (H.sys.sched cpu).currentVcpuid v frame
      (H.sys.machine cpu) = some (mach, frame')) :
    m < n ∧ OnTable conf.platform m mach.regs ∧ ∃ k, TableHolds conf.platform m k H.mem := by
  obtain ⟨hguests, hcases⟩ := doContextSwitch_cases hmach
  rcases hcases with ⟨m', vmem, hvmid, hvmem, hstage⟩ | ⟨hvalid, hsame, hstage⟩
  · rw [hguests.vmidOf] at hvmid
    obtain rfl : m = m' := Option.some.inj (hm.symm.trans hvmid)
    rw [hguests.vms] at hvmem
    obtain ⟨hlt, hof, htable⟩ := h.machine m vmem hvmem
    exact ⟨hlt.trans_le h.count, ⟨hstage.vttbr.trans hof.vttbr, hstage.hcr⟩, htable⟩
  · obtain ⟨m', hlt, hcurrent, hon, htable⟩ := h.running cpu hvalid
    have hcurrent' := hmachine hvalid m (hsame.trans hm)
    obtain rfl : m' = m := Option.some.inj (hcurrent.symm.trans hcurrent')
    exact ⟨hlt, ⟨hstage.vttbr.trans hon.vttbr, by rw [hstage.hcr]; exact hon.hcr⟩, htable⟩

/-- What `sched_perform_switch` relies on is that the machine of the current virtual processor, if
that is there, is the current machine. -/
theorem MemoryInv.performSwitch (h : MemoryInv conf n H) {cpu : PcpuId}
    {regs regs' : Option CoreRegs} {σ : System gPolicy}
    (hmachine : (H.sys.sched cpu).currentVcpuid ≠ vcpuidInvalid → ∀ m,
      H.sys.vmidOf (H.sys.sched cpu).currentVcpuid = some m →
      (H.sys.sched cpu).currentVm = some m)
    (hσ : schedPerformSwitch conf.numLr cpu regs H.sys = some (σ, regs')) :
    MemoryInv conf n { H with sys := σ } := by
  obtain ⟨⟨s, switch⟩, hprepare, hσ⟩ := Option.bind_eq_some_iff.mp hσ
  rw [prepareSwitch] at hprepare
  split at hprepare
  · obtain ⟨m, hm, hpair⟩ := Option.map_eq_some_iff.mp hprepare
    obtain ⟨hs, rfl⟩ := Prod.mk.inj hpair
    obtain ⟨⟨mach, frame⟩, hmach, hσ⟩ := Option.bind_eq_some_iff.mp hσ
    obtain ⟨rfl, -⟩ := Prod.mk.inj (Option.some.inj hσ)
    have hvms : mach.vms = H.sys.vms := (doContextSwitch_cases hmach).1.vms
    have hon := h.onTable_of_switch hmachine hm hmach
    refine ⟨h.count, fun m vmem hvmem => h.machine m vmem (by rwa [← hvms]), h.fresh,
      fun q hvalid => ?_⟩
    by_cases hq : q = cpu
    · subst hq
      obtain ⟨hlt, hon, htable⟩ := hon
      have hself : ((H.sys.setSched q s).setMachine q mach).sched q = s := Function.update_self ..
      refine ⟨m, hlt, ?_, ?_, htable⟩
      · rw [hself, ← hs]
      · have hhw : ((H.sys.setSched q s).setMachine q mach).hw q = ⟨mach.regs, mach.gich⟩ :=
          Function.update_self ..
        rw [hhw]
        exact hon
    · have hsched : ((H.sys.setSched cpu s).setMachine cpu mach).sched q = H.sys.sched q :=
        Function.update_of_ne hq ..
      have hhw : ((H.sys.setSched cpu s).setMachine cpu mach).hw q = H.sys.hw q :=
        Function.update_of_ne hq ..
      rw [hsched] at hvalid ⊢
      rw [hhw]
      exact h.running q hvalid
  · obtain ⟨rfl, rfl⟩ := Prod.mk.inj (Option.some.inj hprepare)
    obtain ⟨rfl, -⟩ := Prod.mk.inj (Option.some.inj hσ)
    exact h.quiet (quiet_setSched (.refl _))

theorem ResidenceInv.currentVm_of_vmidOf (h : ResidenceInv conf H) {cpu : PcpuId}
    (hvalid : (H.sys.sched cpu).currentVcpuid ≠ vcpuidInvalid) {m : VmId}
    (hm : H.sys.vmidOf (H.sys.sched cpu).currentVcpuid = some m) :
    (H.sys.sched cpu).currentVm = some m := by
  obtain ⟨-, -, m', hm', hof⟩ := (h.resident cpu).current hvalid
  obtain ⟨vcpu, hvcpu, rfl⟩ := Option.map_eq_some_iff.mp hm
  rw [hm', hof.vmid vcpu hvcpu]

/-- A call of the policy, the choice of the next processor and the switch to it. -/
theorem MemoryInv.switchTo (h : MemoryInv conf n H) (hres : ResidenceInv conf H) {cpu : PcpuId}
    {now expiration : U64} {regs regs' : Option CoreRegs} {σ : System gPolicy}
    {r : Scheduler (gPolicy cpu).EntryData (gPolicy cpu).SchedData × VcpuId × U64}
    (hr : ((gPolicy cpu).policy conf.sched).doSchedule now expiration (H.sys.sched cpu) = some r)
    (hσ : schedPerformSwitch conf.numLr cpu regs (H.sys.setSched cpu (switchTo r.2.1 r.1)) =
      some (σ, regs')) : MemoryInv conf n { H with sys := σ } := by
  have htouches := ((gPolicy cpu).spec conf.sched).schedule now expiration _ r hr
  have hchosen : MemoryInv conf n (H.setSched cpu (KHypervisor.switchTo r.2.1 r.1)) :=
    h.quiet (quiet_setSched ⟨htouches.currentVm, .inl htouches.currentVcpuid⟩)
  refine hchosen.performSwitch (fun hvalid m hm => ?_) hσ
  rw [setSched_self] at hvalid hm ⊢
  have hid : (KHypervisor.switchTo r.2.1 r.1).currentVcpuid = (H.sys.sched cpu).currentVcpuid :=
    htouches.currentVcpuid
  have hvm : (KHypervisor.switchTo r.2.1 r.1).currentVm = (H.sys.sched cpu).currentVm :=
    htouches.currentVm
  rw [hid] at hvalid hm
  rw [hvm]
  exact hres.currentVm_of_vmidOf hvalid hm

theorem MemoryInv.startTurn (h : MemoryInv conf n H) (hres : ResidenceInv conf H) {cpu : PcpuId}
    {now expiration : U64} (hstep : startTurn conf cpu now expiration H = some H') :
    MemoryInv conf n H' ∧ SameMem H H' := by
  obtain ⟨⟨s, next, expiration'⟩, hr, hstep⟩ := Option.bind_eq_some_iff.mp hstep
  have htouches := ((gPolicy cpu).spec conf.sched).schedule now expiration _ _ hr
  dsimp only at hstep
  by_cases hnext : next = vcpuidInvalid
  · rw [if_pos hnext] at hstep
    rw [← Option.some.inj hstep]
    exact ⟨h.quiet (quiet_setSched ⟨htouches.currentVm, .inl htouches.currentVcpuid⟩), rfl, rfl⟩
  · rw [if_neg hnext] at hstep
    obtain ⟨T₁, -, hstep⟩ := Option.bind_eq_some_iff.mp hstep
    obtain ⟨T₂, -, hstep⟩ := Option.bind_eq_some_iff.mp hstep
    obtain ⟨⟨σ, regs⟩, hσ, hstep⟩ := Option.bind_eq_some_iff.mp hstep
    rw [← Option.some.inj hstep]
    exact ⟨(h.switchTo hres hr hσ).quiet (quiet_timers T₂), rfl, rfl⟩

theorem MemoryInv.doScheduleTimer (h : MemoryInv conf n H) (hres : ResidenceInv conf H)
    {cpu : PcpuId} {now expiration : U64} {regs : Option CoreRegs}
    {r : U64 × Hypervisor gPolicy × Option CoreRegs}
    (hr : doScheduleTimer conf cpu now expiration regs H = some r) :
    MemoryInv conf n r.2.1 ∧ SameMem H r.2.1 := by
  obtain ⟨q, hq, hr⟩ := Option.bind_eq_some_iff.mp hr
  obtain ⟨⟨σ, regs'⟩, hσ, hr⟩ := Option.bind_eq_some_iff.mp hr
  rw [← Option.some.inj hr]
  exact ⟨h.switchTo hres hq hσ, rfl, rfl⟩

theorem MemoryInv.timerCallback {cpu : PcpuId} {now : TimerRef → U64} {t : TimerRef}
    {expiration : U64} {u : Hypervisor gPolicy × Option CoreRegs}
    {r : U64 × Hypervisor gPolicy × Option CoreRegs} (h : MemoryInv conf n u.1)
    (hres : ResidenceInv conf u.1) (hr : timerCallback conf cpu now t expiration u = some r) :
    MemoryInv conf n r.2.1 ∧ SameMem u.1 r.2.1 := by
  obtain ⟨J, regs⟩ := u
  cases t with
  | vtimer v =>
      obtain ⟨vcpu, -, hr⟩ := Option.bind_eq_some_iff.mp hr
      generalize vdevTimerHandler conf.timer expiration (J.life v).vtimer = x at hr
      obtain ⟨expiration', vtimer, forward⟩ := x
      obtain ⟨J', hJ', rfl⟩ := Option.map_eq_some_iff.mp hr
      have hlife : Quiet J (J.setLife v { J.life v with vtimer := vtimer }) := quiet_setLife v _
      have hquiet : Quiet J J' := by
        split at hJ'
        · exact hlife.trans (quiet_virqInject hJ')
        · rw [← Option.some.inj hJ']
          exact hlife
      exact ⟨h.quiet hquiet, hquiet.toSameMem⟩
  | sched p => exact h.doScheduleTimer hres hr

theorem MemoryInv.timerIrqHandler (h : MemoryInv conf n H) (hres : ResidenceInv conf H)
    {cpu : PcpuId} {count : U64} {now : TimerRef → U64} {regs : Option CoreRegs}
    (hstep : H.timerIrqHandler conf cpu count now regs = some H') :
    MemoryInv conf n H' ∧ SameMem H H' := by
  obtain ⟨⟨T, J, regs'⟩, hirq, rfl⟩ := Option.map_eq_some_iff.mp hstep
  obtain ⟨-, -, -, hinv, hmem⟩ := timerIrqHandler_links
    (P := fun u => ResidenceInv conf u.1 ∧ MemoryInv conf n u.1 ∧ SameMem H u.1)
    (fun t e u r ⟨hres, hinv, hmem⟩ hr => by
      obtain ⟨hinv', hmem'⟩ := hinv.timerCallback hres hr
      exact ⟨hres.move (move_timerCallback hr).1, hinv', hmem.trans hmem'⟩)
    ⟨hres, h, .refl H⟩ hirq
  exact ⟨hinv.quiet (quiet_timers T), hmem.mem, hmem.dma⟩

/-! ## Suspension -/

/-- Whoever is suspended by its own processor is not the current one any more. -/
theorem vcpuSuspend_current {cpu : PcpuId} {regs : Option CoreRegs} {c v : VcpuId}
    (hplace : conf.vcpuToPcpu c = cpu) (hc : (H.sys.sched cpu).currentVcpu = some c)
    (h : vcpuSuspend conf cpu regs v H = some H') :
    (H'.sys.sched cpu).currentVcpu = some c ∧
      (v = c → (H'.sys.sched cpu).currentVcpuid = vcpuidInvalid) := by
  obtain ⟨mach, -, h⟩ := Option.bind_eq_some_iff.mp h
  obtain ⟨s, hs, h⟩ := Option.bind_eq_some_iff.mp h
  obtain ⟨i, -, hdetach⟩ := ((gPolicy _).spec conf.sched).detach_spec hs
  rw [← Option.some.inj h]
  have hkept : ((((H.setMachine cpu mach).setSched (conf.vcpuToPcpu v) s).setState v
      .registered).sys.sched cpu).currentVcpu = some c :=
    (H.setMachine cpu mach).forall_setSched
      (P := fun q t => q = cpu → t.currentVcpu = some c)
      (fun hq => by
        subst hq
        exact hdetach.currentVcpu.trans hc)
      (fun q _ hq => by
        subst hq
        exact hc) cpu rfl
  refine ⟨hkept, fun hvc => ?_⟩
  subst hvc
  subst hplace
  obtain ⟨j, -, hs⟩ := Option.bind_eq_some_iff.mp hs
  obtain ⟨current, hcurrent, hs⟩ := Option.bind_eq_some_iff.mp hs
  have hself : current = v := by
    have hfilter := (Option.filter_eq_some_iff.mp hcurrent).1
    exact Option.some.inj (hfilter.symm.trans hc)
  rw [if_pos hself] at hs
  have hsched := setSched_self (H.setMachine (conf.vcpuToPcpu v) mach) (conf.vcpuToPcpu v) s
  have hinvalid : s.currentVcpuid = vcpuidInvalid := by rw [← Option.some.inj hs]
  exact (congrArg Scheduler.currentVcpuid hsched).trans hinvalid

/-- If the current one is among those that its own processor suspends, there is none after it. -/
theorem run_vcpuSuspend_stops {cpu : PcpuId} {regs : Option CoreRegs} {c : VcpuId}
    {vs : List VcpuId} (hplace : conf.vcpuToPcpu c = cpu)
    (hcurrent : (H.sys.sched cpu).currentVcpu = some c) (hc : c ∈ vs)
    (h : run (fun J v => vcpuSuspend conf cpu regs v J) H vs = some H') :
    (H'.sys.sched cpu).currentVcpuid = vcpuidInvalid := by
  refine (run_induction (I := fun vs J => (J.sys.sched cpu).currentVcpu = some c ∧
    (c ∈ vs → (J.sys.sched cpu).currentVcpuid = vcpuidInvalid))
    ⟨hcurrent, fun hnil => absurd hnil List.not_mem_nil⟩ ?_ h).2 hc
  rintro vs v J J' - ⟨hcur, hgone⟩ hJ
  obtain ⟨hcur', hself⟩ := vcpuSuspend_current hplace hcur hJ
  refine ⟨hcur', fun hc => ?_⟩
  rcases List.mem_append.mp hc with hc | hc
  · rcases ((quiet_vcpuSuspend hJ).current cpu).currentVcpuid with hsame | hinvalid
    · rw [hsame, hgone hc]
    · exact hinvalid
  · exact hself (List.mem_singleton.mp hc).symm

theorem MemoryInv.vmSuspend (h : MemoryInv conf n H) (hres : ResidenceInv conf H) {cpu : PcpuId}
    {m : VmId} {regs : Option CoreRegs} {r : Hypervisor gPolicy × Option VmcbState}
    (hmachine : (H.sys.sched cpu).currentVcpuid ≠ vcpuidInvalid →
      (H.sys.sched cpu).currentVm = some m)
    (hr : vmSuspend conf cpu m regs H = some r) : MemoryInv conf n r.1 ∧ SameMem H r.1 := by
  rw [KHypervisor.vmSuspend] at hr
  split at hr
  · rw [← Option.some.inj hr]
    exact ⟨h, .refl H⟩
  · rename_i vmem hvmem
    obtain ⟨J, hJ, hr⟩ := Option.bind_eq_some_iff.mp hr
    rw [← Option.some.inj hr]
    have hquiet : Quiet (H.setMachine cpu (vmSave m (H.sys.machine cpu))) J :=
      quiet_run (fun K v K' hK => quiet_vcpuSuspend hK) hJ
    have hstopped : (J.sys.sched cpu).currentVcpuid = vcpuidInvalid := by
      by_contra hvalid
      have hid : (J.sys.sched cpu).currentVcpuid = (H.sys.sched cpu).currentVcpuid :=
        (hquiet.current cpu).currentVcpuid.resolve_right hvalid
      have hvalid' := hvalid
      rw [hid] at hvalid'
      obtain ⟨hresident, hcurrent, m', hm', hof⟩ := (hres.resident cpu).current hvalid'
      obtain rfl : m' = m := Option.some.inj (hm'.symm.trans (hmachine hvalid'))
      have hmem := hof.owned (by rw [hvmem, Option.isSome_some])
      exact hvalid (run_vcpuSuspend_stops (H := H.setMachine cpu (vmSave m' (H.sys.machine cpu)))
        hresident.place hcurrent hmem hJ)
    have hall : Quiet H J := by
      refine ⟨⟨hquiet.mem, hquiet.dma⟩, hquiet.vmCount, hquiet.vms, hquiet.current,
        fun q hvalid => ?_⟩
      have hq : q ≠ cpu := by
        rintro rfl
        exact hvalid hstopped
      have hregs := hquiet.regs q hvalid
      have hhw : (H.setMachine cpu (vmSave m (H.sys.machine cpu))).sys.hw q = H.sys.hw q :=
        Function.update_of_ne hq ..
      rwa [hhw] at hregs
    exact ⟨h.quiet (hall.trans (quiet_setVmcb m _)), hall.mem, hall.dma⟩

/-! ## Changes of the tables -/

structure TablesOnly (conf : HvConf) (n : ℕ) (H H' : Hypervisor gPolicy) : Prop where
  bytes : ∀ x, H'.mem.bytes x ≠ H.mem.bytes x → ∃ m < n, conf.platform.InTable m x
  dma : H'.dma = H.dma

theorem tablesOnly_of_sameMem (h : SameMem H H') : TablesOnly conf n H H' :=
  ⟨fun x hx => absurd (by rw [h.mem]) hx, h.dma⟩

theorem tablesOnly_of_writesOnly (hp : conf.platform.Separated n) {m : VmId} (hm : m < n)
    (h : WritesOnly (IsTableWord (tableBase conf.platform m)) H.mem H'.mem)
    (hdma : H'.dma = H.dma) : TablesOnly conf n H H' := by
  refine ⟨fun x hx => ?_, hdma⟩
  by_contra hnot
  exact hx (writesOnly_bytes hp hm h fun hin => hnot ⟨m, hm, hin⟩)

theorem vmemInit_eq_some {p : Platform} {m : VmId} {vmem vmem' : Vmem} {mem mem' : PhysMem}
    {hw hw' : Registers} (hend : ∃ d ∈ p.vmMmap m, d.label = none) (hof : VmemOf p m vmem)
    (h : vmemInit p vmem m mem hw = some (vmem', mem', hw')) :
    mapCalls (tableBase p m) mem (p.calls m) = some mem' ∧ VmemOf p m vmem' ∧ SameTable hw hw' := by
  have hmaps := vmemInit_eq p vmem m hend mem mem hw
  rw [hof, h] at hmaps
  have hvtcr : Cp32.hcr ≠ Cp32.vtcr := by decide
  have hdone : ∀ vtcr actlr, VmemOf p m { vmem with vtcr := vtcr, actlr := actlr } ∧
      SameTable hw (hw.writeCp32 vtcr .vtcr) := fun vtcr actlr =>
    ⟨hof.copy vtcr actlr, rfl, by simp [Registers.writeCp32, hvtcr]⟩
  refine ⟨hmaps.symm, ?_⟩
  obtain ⟨mem₁, -, h⟩ := Option.bind_eq_some_iff.mp h
  dsimp only at h
  split at h
  all_goals
    obtain ⟨mem₂, -, h⟩ := Option.bind_eq_some_iff.mp h
    obtain ⟨rfl, hrest⟩ := Prod.mk.inj (Option.some.inj h)
    obtain ⟨-, rfl⟩ := Prod.mk.inj hrest
    exact hdone _ _

/-- A machine has written to its own table, and nobody else's is changed. -/
theorem MemoryInv.writeTable (hp : conf.platform.Separated n) (h : MemoryInv conf n H) {m : VmId}
    (hm : m < H.vmCount) {mem : PhysMem} {k : ℕ}
    (hwrites : WritesOnly (IsTableWord (tableBase conf.platform m)) H.mem mem)
    (htable : TableHolds conf.platform m k mem) : MemoryInv conf n { H with mem := mem } := by
  have hlt : m < n := hm.trans_le h.count
  refine h.setMem (fun m' hm' k' htable' => ?_) fun m' hm' hcount hfresh => ?_
  · by_cases hne : m' = m
    · subst hne
      exact ⟨k, htable⟩
    · exact ⟨k', htable'.congr hp hm' (sameTableBytes_of_writesOnly hp hlt hm' hne hwrites)⟩
  · exact hfresh.congr hp hm'
      (sameTableBytes_of_writesOnly hp hlt hm' (hm.trans_le hcount).ne' hwrites)

theorem MemoryInv.vmInit (hp : conf.platform.Separated n) (h : MemoryInv conf n H) {cpu : PcpuId}
    {syscounter : VcpuId → U64} {m : VmId} {r : Hypervisor gPolicy × Option VmcbState}
    (hr : vmInit conf cpu syscounter m H = some r) :
    MemoryInv conf n r.1 ∧ TablesOnly conf n H r.1 := by
  rw [KHypervisor.vmInit] at hr
  split at hr
  · rw [← Option.some.inj hr]
    exact ⟨h, tablesOnly_of_sameMem (.refl H)⟩
  · rename_i vmem hvmem
    obtain ⟨J, hJ, hr⟩ := Option.bind_eq_some_iff.mp hr
    obtain ⟨⟨vmem', mem, regs⟩, hinit, hr⟩ := Option.bind_eq_some_iff.mp hr
    rw [← Option.some.inj hr]
    have hquiet : Quiet H (J.setVmState m .halted) :=
      (quiet_run (fun K v K' hK => quiet_vmInitVcpu hK) hJ).trans (quiet_setVmcb m _)
    obtain ⟨hlt, hof, k, htable⟩ := h.machine m vmem hvmem
    have hm : m < n := hlt.trans_le h.count
    obtain ⟨hmaps, hof', hregs⟩ := vmemInit_eq_some (hp.ends m hm) hof hinit
    have hwrites := writesOnly_mapCalls hmaps
    have hmem : (J.setVmState m .halted).mem = H.mem := hquiet.mem
    have hmapped : TableHolds conf.platform m (k + 1) mem :=
      TableHolds.mapCalls hp hm (by rwa [hmem]) hmaps
    have hcount : m < (J.setVmState m .halted).vmCount := hlt.trans_le hquiet.vmCount.ge
    have hset := (h.quiet hquiet).writeTable hp hcount hwrites hmapped
    refine ⟨(hset.setVmem hcount hof' ⟨k + 1, hmapped⟩).quiet
      (quiet_setMachine rfl hregs), ?_⟩
    rw [hmem] at hwrites
    exact tablesOnly_of_writesOnly hp hm hwrites hquiet.dma

/-- The loop of `vm_create` does not touch the memory and the registers. -/
theorem createVcpus_hardware (type : VmcbType) (vmid : VmId) (alloc : ℕ → Bool) (is : List ℕ)
    (array : List VcpuId) (H : Hypervisor gPolicy) :
    SameMem H (createVcpus type vmid alloc is array H).1 ∧
      (createVcpus type vmid alloc is array H).1.sys.hw = H.sys.hw := by
  induction is generalizing array H with
  | nil => exact ⟨.refl H, rfl⟩
  | cons i is ih =>
      by_cases hi : alloc i = true
      · rw [createVcpus_cons type vmid alloc i is array H hi]
        obtain ⟨hmem, hhw⟩ := ih (array ++ [H.nrVcpus]) (H.createVcpu type vmid i)
        exact ⟨⟨hmem.mem, hmem.dma⟩, hhw⟩
      · rw [createVcpus, if_neg hi]
        exact ⟨.refl H, rfl⟩

theorem quiet_createVcpus (type : VmcbType) (vmid : VmId) (alloc : ℕ → Bool) (is : List ℕ)
    (array : List VcpuId) (H : Hypervisor gPolicy) :
    Quiet H (createVcpus type vmid alloc is array H).1 := by
  obtain ⟨hcreates, -⟩ := createVcpus_spec type vmid alloc is array H
  obtain ⟨hmem, hhw⟩ := createVcpus_hardware type vmid alloc is array H
  exact quiet_of_eq hmem hcreates.vmCount hcreates.vms hhw hcreates.sched

theorem MemoryInv.vmCreate (hp : conf.platform.Separated n) (h : MemoryInv conf n H)
    (hcount : H.vmCount < n) (numVcpus : U8) (type : VmcbType) (alloc : VmAlloc) :
    MemoryInv conf n (vmCreate conf numVcpus type alloc H).1 ∧
      TablesOnly conf n H (vmCreate conf numVcpus type alloc H).1 := by
  have hnext : MemoryInv conf n { H with vmCount := H.vmCount + 1 } :=
    ⟨hcount,
      fun m vmem hm => (h.machine m vmem hm).imp_left fun hlt => hlt.trans (Nat.lt_succ_self _),
      fun m hm hle => h.fresh m hm ((Nat.le_succ _).trans hle), h.running⟩
  rw [KHypervisor.vmCreate]
  split
  · dsimp only
    split
    · have hquiet := quiet_createVcpus type H.vmCount alloc.vcpu (List.range numVcpus.toNat) []
        { H with vmCount := H.vmCount + 1 }
      rcases hJ : createVcpus type H.vmCount alloc.vcpu (List.range numVcpus.toNat) []
        { H with vmCount := H.vmCount + 1 } with ⟨J, _ | array⟩ <;>
        rw [hJ] at hquiet <;> dsimp only at hquiet ⊢
      · exact ⟨hnext.quiet hquiet, tablesOnly_of_sameMem ⟨hquiet.mem, hquiet.dma⟩⟩
      · have hmem : J.mem = H.mem := hquiet.mem
        have hlt : H.vmCount < J.vmCount := by
          rw [hquiet.vmCount]
          exact Nat.lt_succ_self _
        have hwrites := writesOnly_pagingCreate (tableBase conf.platform H.vmCount) J.mem
        have hfresh := h.fresh H.vmCount hcount (Nat.le_refl _)
        rw [← hmem] at hfresh
        have htable := tableHolds_pagingCreate hp hfresh
        rw [← vmemCreate_mem conf.platform default] at hwrites htable
        generalize (vmemCreate conf.platform default H.vmCount J.mem).2 = mem at hwrites htable ⊢
        have hset := (hnext.quiet hquiet).writeTable hp hlt hwrites htable
        have hvmem := vmemOf_vmemCreate conf.platform default H.vmCount J.mem
        refine ⟨(hset.setVmem hlt hvmem ⟨0, htable⟩).quiet (quiet_setVmcb H.vmCount _), ?_⟩
        rw [hmem] at hwrites
        exact tablesOnly_of_writesOnly hp hcount hwrites hquiet.dma
    · exact ⟨hnext, tablesOnly_of_sameMem ⟨rfl, rfl⟩⟩
  · exact ⟨h, tablesOnly_of_sameMem (.refl H)⟩

/-! ## Steps -/

theorem MemoryInv.of_quiet (h : MemoryInv conf n H) (hquiet : Quiet H H') :
    MemoryInv conf n H' ∧ TablesOnly conf n H H' :=
  ⟨h.quiet hquiet, tablesOnly_of_sameMem hquiet.toSameMem⟩

theorem MemoryInv.call (hp : conf.platform.Separated n) (hres : ResidenceInv conf H)
    (h : MemoryInv conf n H) {e : HvEvent} (hgood : ¬ Oversteps conf.platform n H (.call e))
    (hsnapshot : ∀ cpu m k regs, e ≠ .kmusSnapshot cpu m k regs)
    (hstep : hvStep conf H e = some H') : MemoryInv conf n H' ∧ TablesOnly conf n H H' := by
  have hcall := hvCall_of_hvStep hstep
  cases e with
  | vmCreate numVcpus type alloc =>
      rw [← Option.some.inj hcall]
      exact h.vmCreate hp (Nat.lt_of_not_le hgood) numVcpus type alloc
  | vmInit cpu syscounter m =>
      obtain ⟨r, hr, rfl⟩ := Option.map_eq_some_iff.mp hcall
      exact h.vmInit hp hr
  | vmStart m =>
      obtain ⟨r, hr, rfl⟩ := Option.map_eq_some_iff.mp hcall
      exact h.of_quiet (quiet_vmStart hr)
  | vmSuspend cpu m regs =>
      obtain ⟨r, hr, rfl⟩ := Option.map_eq_some_iff.mp hcall
      have hmachine := fun hvalid => not_not.mp fun hne => hgood ⟨hvalid, hne⟩
      exact (h.vmSuspend hres hmachine hr).imp_right tablesOnly_of_sameMem
  | vmDelete m =>
      obtain ⟨r, hr, rfl⟩ := Option.map_eq_some_iff.mp hcall
      exact h.of_quiet (quiet_vmDelete hr)
  | kmusSnapshot cpu m k regs => exact absurd rfl (hsnapshot cpu m k regs)
  | makeNormal kmusId =>
      obtain ⟨vmem, -, hcall⟩ := Option.bind_eq_some_iff.mp hcall
      obtain ⟨v, -, hcall⟩ := Option.bind_eq_some_iff.mp hcall
      obtain ⟨vcpu, -, hcall⟩ := Option.bind_eq_some_iff.mp hcall
      rw [← Option.some.inj hcall]
      exact h.of_quiet (quiet_setLife v _)
  | cpuOn cpu regs =>
      obtain ⟨r, hr, rfl⟩ := Option.map_eq_some_iff.mp hcall
      obtain ⟨m, -, hr⟩ := Option.bind_eq_some_iff.mp hr
      split at hr
      · rw [← Option.some.inj hr]
        exact h.of_quiet (.refl H)
      · obtain ⟨J, hJ, rfl⟩ := Option.map_eq_some_iff.mp hr
        exact h.of_quiet (quiet_activate hJ)
  | flagsset cpu pc =>
      obtain ⟨m, -, hcall⟩ := Option.bind_eq_some_iff.mp hcall
      exact h.of_quiet (quiet_run (fun J v J' hJ => quiet_activate hJ) hcall)
  | schedStart cpu now expiration =>
      exact (h.startTurn hres hcall).imp_right tablesOnly_of_sameMem
  | doSchedule cpu regs now expiration =>
      obtain ⟨r, hr, rfl⟩ := Option.map_eq_some_iff.mp hcall
      exact (h.doScheduleTimer hres hr).imp_right tablesOnly_of_sameMem
  | timerIrq cpu count now regs =>
      exact (h.timerIrqHandler hres hcall).imp_right tablesOnly_of_sameMem
  | timerAccess32 cpu syscounter read what rt =>
      obtain ⟨v, -, hcall⟩ := Option.bind_eq_some_iff.mp hcall
      exact h.of_quiet (quiet_timerAccess hcall)
  | timerAccess64 cpu syscounter read what rt =>
      obtain ⟨v, -, hcall⟩ := Option.bind_eq_some_iff.mp hcall
      exact h.of_quiet (quiet_timerAccess hcall)
  | guest cpu g =>
      rw [← Option.some.inj hcall]
      exact h.of_quiet (quiet_setMachine rfl ⟨rfl, rfl⟩)

end KHypervisor
