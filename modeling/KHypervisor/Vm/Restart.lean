import KHypervisor.Vm.Ownership

/-!
# Suspending and starting again

A virtual processor that is suspended leaves its scheduler, but its entry does not go back into the
detached state in which `sched_vcpu_attach` would take it; and `vm_start` starts no others than
those that a machine boots with. What a machine has of its virtual processors after it has been
suspended and started is therefore hardly ever what it had before: `restores_iff`.
-/

namespace KHypervisor

open Run Hypervisor

variable {gPolicy : PcpuId → PolicyName}

/-- The virtual processor is attached to its scheduler: its entry is in flight, and the policy has
it in its run queue or as the current one. -/
def Hypervisor.Attached (conf : HvConf) (H : Hypervisor gPolicy) (v : VcpuId) : Prop :=
  ∃ i, findEntry (H.sys.sched (conf.vcpuToPcpu v)) v = some i ∧
    i ∈ (H.sys.sched (conf.vcpuToPcpu v)).inflightEntries ∧
    i ∈ (gPolicy (conf.vcpuToPcpu v)).refs (H.sys.sched (conf.vcpuToPcpu v)).sd

/-- The virtual processor is one that `vcpu_start` starts: the first one of a machine, and of type
`VCPU_NORMAL`. -/
def Hypervisor.BootsFrom (H : Hypervisor gPolicy) (v : VcpuId) : Prop :=
  (H.sys.vcpus v).map Vcpu.id = some 0 ∧ (H.life v).type = .normal

/-- From `H` to `H'` the virtual processors of machine `m` that were activated have come to be
attached and activated, and no others of its. -/
def Restores (conf : HvConf) (m : VmId) (H H' : Hypervisor gPolicy) : Prop :=
  ∀ v ∈ (H.vmcb m).vcpu, (H'.Attached conf v ↔ (H.life v).state = .activated) ∧
    ((H'.life v).state = .activated ↔ (H.life v).state = .activated)

/-- The entry of the virtual processor is not in flight. -/
def Hypervisor.OutOfFlight (conf : HvConf) (H : Hypervisor gPolicy) (v : VcpuId) : Prop :=
  ∀ i, findEntry (H.sys.sched (conf.vcpuToPcpu v)) v = some i →
    i ∉ (H.sys.sched (conf.vcpuToPcpu v)).inflightEntries

/-- The entry of the virtual processor is in no state to be attached. -/
def Hypervisor.Refused (conf : HvConf) (H : Hypervisor gPolicy) (v : VcpuId) : Prop :=
  ∀ i, findEntry (H.sys.sched (conf.vcpuToPcpu v)) v = some i →
    ((H.sys.sched (conf.vcpuToPcpu v)).entry i).state ≠ .detached

variable {conf : HvConf} {H H' H'' : Hypervisor gPolicy}

theorem Hypervisor.OutOfFlight.not_attached {v : VcpuId} (h : H.OutOfFlight conf v) :
    ¬ H.Attached conf v :=
  fun ⟨i, hi, hmem, _⟩ => h i hi hmem

/-! ## Suspending -/

/-- From `H` to `H'` the virtual processors in `vs` have been suspended. -/
structure Suspends (conf : HvConf) (vs : List VcpuId) (H H' : Hypervisor gPolicy) : Prop where
  array : ∀ k, (H'.vmcb k).vcpu = (H.vmcb k).vcpu
  boots : ∀ v, H'.BootsFrom v ↔ H.BootsFrom v
  keeps : ∀ p, KeepsEntries (H.sys.sched p) (H'.sys.sched p)
  inflight : ∀ p, ∀ i ∈ (H'.sys.sched p).inflightEntries, i ∈ (H.sys.sched p).inflightEntries
  state : ∀ v ∉ vs, (H'.life v).state = (H.life v).state
  suspended : ∀ v ∈ vs, (H'.life v).state = .registered ∧ H'.OutOfFlight conf v

theorem Suspends.refl (H : Hypervisor gPolicy) : Suspends conf [] H H :=
  ⟨fun _ => rfl, fun _ => Iff.rfl, fun _ => .refl _, fun _ _ hi => hi, fun _ _ => rfl,
    fun _ hv => absurd hv List.not_mem_nil⟩

theorem Suspends.trans {vs ws : List VcpuId} (h : Suspends conf vs H H')
    (h' : Suspends conf ws H' H'') : Suspends conf (vs ++ ws) H H'' := by
  refine ⟨fun k => (h'.array k).trans (h.array k), fun v => (h'.boots v).trans (h.boots v),
    fun p => ?_, fun p i hi => h.inflight p i (h'.inflight p i hi), fun v hv => ?_, fun v hv => ?_⟩
  · exact ⟨(h'.keeps p).standby.trans (h.keeps p).standby,
      fun i => ((h'.keeps p).vcpuid i).trans ((h.keeps p).vcpuid i),
      fun i hi => (h'.keeps p).state i ((h.keeps p).state i hi)⟩
  · rw [List.mem_append, not_or] at hv
    exact (h'.state v hv.2).trans (h.state v hv.1)
  · by_cases hmem : v ∈ ws
    · exact h'.suspended v hmem
    · obtain ⟨hstate, hout⟩ := h.suspended v ((List.mem_append.mp hv).resolve_right hmem)
      refine ⟨(h'.state v hmem).trans hstate, fun i hi hin => ?_⟩
      rw [(h'.keeps _).findEntry] at hi
      exact hout i hi (h'.inflight _ i hin)

theorem suspends_vcpuSuspend {cpu : PcpuId} {regs : Option CoreRegs} {v : VcpuId}
    (hentries : EntriesInv (H.sys.sched (conf.vcpuToPcpu v)))
    (h : vcpuSuspend conf cpu regs v H = some H') : Suspends conf [v] H H' := by
  obtain ⟨mach, hsave, h⟩ := Option.bind_eq_some_iff.mp h
  obtain ⟨s, hs, h⟩ := Option.bind_eq_some_iff.mp h
  obtain ⟨vcpu, hvcpu, rfl⟩ := Option.map_eq_some_iff.mp hsave
  obtain ⟨i, hfind, hdetach⟩ := ((gPolicy (conf.vcpuToPcpu v)).spec conf.sched).detach_spec hs
  have hi : findEntry (H.sys.sched (conf.vcpuToPcpu v)) v = some i := hfind
  have hkeeps : ∀ p, KeepsEntries (H.sys.sched p) ((H.setSched _ s).sys.sched p) :=
    H.forall_setSched (P := fun p t => KeepsEntries (H.sys.sched p) t) hdetach.keepsEntries
      fun _ _ => .refl _
  have hsub : ∀ p, ∀ j ∈ ((H.setSched _ s).sys.sched p).inflightEntries,
      j ∈ (H.sys.sched p).inflightEntries :=
    H.forall_setSched (P := fun p t => ∀ j ∈ t.inflightEntries, j ∈ (H.sys.sched p).inflightEntries)
      (fun j hj => List.mem_of_mem_erase (hdetach.inflight ▸ hj)) fun _ _ _ hj => hj
  have hout : (H.setSched _ s).OutOfFlight conf v := fun j hj hin => by
    rw [(hkeeps _).findEntry, hi, Option.some.injEq] at hj
    rw [setSched_self, ← hj, hdetach.inflight] at hin
    exact hentries.nodup.not_mem_erase hin
  have hid : ∀ w, (Function.update H.sys.vcpus v
      (some ((H.sys.machine cpu).saved conf.numLr regs vcpu)) w).map Vcpu.id =
        (H.sys.vcpus w).map Vcpu.id := map_update Vcpu.id hvcpu rfl
  rw [← Option.some.inj h]
  refine ⟨fun _ => rfl, fun w => ?_, hkeeps, hsub, fun w hw => ?_, fun w hw => ?_⟩
  · rw [BootsFrom, BootsFrom, setState_type]
    exact and_congr_left' (iff_of_eq (congrArg (· = some 0) (hid w)))
  · rw [setState_state, if_neg (by simpa using hw)]
    rfl
  · rw [List.mem_singleton.mp hw]
    exact ⟨(setState_state ..).trans (if_pos rfl), hout⟩

theorem suspends_vmSuspend {cpu : PcpuId} {m : VmId} {regs : Option CoreRegs}
    (hinv : LifeInv conf H) (h : vmSuspend conf cpu m regs H = some (H', some .halted)) :
    Suspends conf (H.vmcb m).vcpu H H' := by
  rw [vmSuspend] at h
  cases hm : H.sys.vms m with
  | none => simp [hm] at h
  | some vmem =>
      rw [hm] at h
      obtain ⟨K, hK, h⟩ := Option.bind_eq_some_iff.mp h
      obtain ⟨rfl, -⟩ := Prod.mk.inj (Option.some.inj h)
      have hsave : SameFrame H (H.setMachine cpu (vmSave m (H.sys.machine cpu))) :=
        sameFrame_setMachine ⟨rfl, fun _ => rfl⟩
      have hfirst : Suspends conf [] H (H.setMachine cpu (vmSave m (H.sys.machine cpu))) :=
        ⟨fun _ => rfl, fun _ => Iff.rfl, fun _ => .refl _, fun _ _ hi => hi, fun _ _ => rfl,
          fun _ hv => absurd hv List.not_mem_nil⟩
      obtain ⟨-, hsuspends⟩ := run_induction
        (I := fun vs J => LifeInv conf J ∧ Suspends conf vs H J) ⟨hinv.same hsave, hfirst⟩
        (fun vs v J J' _ hJ hstep => ⟨hJ.1.moves (moves_vcpuSuspend hstep).1,
          hJ.2.trans (suspends_vcpuSuspend (hJ.1.entries _) hstep)⟩) hK
      have hstate : SameFrame K (K.setVmState m .halted) := sameFrame_setVmcb rfl
      have hlast : Suspends conf [] K (K.setVmState m .halted) :=
        ⟨hstate.array, fun _ => Iff.rfl, fun _ => .refl _,
          fun _ _ hi => hi, fun _ _ => rfl, fun _ hv => absurd hv List.not_mem_nil⟩
      have hall := hsuspends.trans hlast
      rwa [List.append_nil] at hall

/-! ## Starting -/

/-- From `H` to `H'` the virtual processors in `vs` have been started. -/
structure Starts (conf : HvConf) (vs : List VcpuId) (H H' : Hypervisor gPolicy) : Prop where
  boots : ∀ v, H'.BootsFrom v ↔ H.BootsFrom v
  started : ∀ v ∈ vs, H.BootsFrom v → (H'.life v).state = .activated
  activated : ∀ v, (H.life v).state = .activated → (H'.life v).state = .activated
  refused : ∀ v, H.OutOfFlight conf v ∧ H.Refused conf v → H'.OutOfFlight conf v ∧ H'.Refused conf v

theorem Starts.refl (H : Hypervisor gPolicy) : Starts conf [] H H :=
  ⟨fun _ => Iff.rfl, fun _ hv => absurd hv List.not_mem_nil, fun _ => id, fun _ => id⟩

theorem Starts.trans {vs ws : List VcpuId} (h : Starts conf vs H H') (h' : Starts conf ws H' H'') :
    Starts conf (vs ++ ws) H H'' := by
  refine ⟨fun v => (h'.boots v).trans (h.boots v), fun v hv hboots => ?_,
    fun v hv => h'.activated v (h.activated v hv), fun v hv => h'.refused v (h.refused v hv)⟩
  rcases List.mem_append.mp hv with hv | hv
  · exact h'.activated v (h.started v hv hboots)
  · exact h'.started v hv ((h.boots v).mpr hboots)

theorem starts_vcpuStart {v : VcpuId} (h : vcpuStart conf v H = some H') :
    Starts conf [v] H H' := by
  obtain ⟨vcpu, hv, h⟩ := Option.bind_eq_some_iff.mp h
  split at h
  · rename_i hboot
    have hattach : ∀ q, KeepsEntries (H.sys.sched q)
        ((H.attach conf v (conf.vcpuToPcpu v)).sys.sched q) ∧
        ∀ j ∈ ((H.attach conf v (conf.vcpuToPcpu v)).sys.sched q).inflightEntries,
          j ∈ (H.sys.sched q).inflightEntries ∨ ((H.sys.sched q).entry j).state = .detached := by
      refine H.forall_setSched (P := fun q t => KeepsEntries (H.sys.sched q) t ∧
        ∀ j ∈ t.inflightEntries, j ∈ (H.sys.sched q).inflightEntries ∨
          ((H.sys.sched q).entry j).state = .detached) ?_ fun _ _ => ⟨.refl _, fun _ => .inl⟩
      rcases ((gPolicy _).spec conf.sched).attach_cases v (conf.vcpuToPcpu v) (H.sys.sched _) with
        ⟨hsame, -⟩ | ⟨i, -, hattach, -⟩
      · rw [hsame]
        exact ⟨.refl _, fun _ => .inl⟩
      · refine ⟨hattach.keepsEntries, fun j hj => ?_⟩
        rw [hattach.inflight, List.mem_append, List.mem_singleton] at hj
        exact hj.imp_right fun hji => by rw [hji, hattach.detached]
    rw [← Option.some.inj h]
    refine ⟨fun w => ?_, fun w hw _ => ?_, fun w hw => ?_, fun w hw => ⟨fun i hi hin => ?_,
      fun i hi => ?_⟩⟩
    · rw [BootsFrom, BootsFrom, setState_type]
      rfl
    · rw [List.mem_singleton.mp hw, setState_state, if_pos rfl]
    · rw [setState_state]
      split
      · rfl
      · exact hw
    · have hfind := ((hattach _).1.findEntry w).symm.trans hi
      exact ((hattach _).2 i hin).elim (hw.1 i hfind) (hw.2 i hfind)
    · have hfind := ((hattach _).1.findEntry w).symm.trans hi
      exact (hattach _).1.state i (hw.2 i hfind)
  · rename_i hboot
    rw [← Option.some.inj h]
    refine ⟨fun _ => Iff.rfl, fun w hw hboots => ?_, fun _ => id, fun _ => id⟩
    rw [List.mem_singleton.mp hw, BootsFrom, hv, Option.map_some, Option.some.injEq] at hboots
    exact absurd hboots hboot

theorem starts_vmStart {m : VmId} (h : vmStart conf m H = some (H', some .running)) :
    Starts conf (H.vmcb m).vcpu H H' := by
  rw [vmStart] at h
  cases hm : H.sys.vms m with
  | none => simp [hm] at h
  | some vmem =>
      rw [hm] at h
      obtain ⟨K, hK, h⟩ := Option.bind_eq_some_iff.mp h
      obtain ⟨rfl, -⟩ := Prod.mk.inj (Option.some.inj h)
      have hstarts : Starts conf (H.vmcb m).vcpu H K := run_induction
        (I := fun vs J => Starts conf vs H J) (.refl H)
        (fun vs v J J' _ hJ hstep => hJ.trans (starts_vcpuStart hstep)) hK
      exact ⟨hstarts.boots, hstarts.started, hstarts.activated, hstarts.refused⟩

/-- A machine without a virtual processor to boot from is not changed but for its state. -/
theorem vmStart_eq {m : VmId} (hboots : ∀ v ∈ (H.vmcb m).vcpu, ¬ H.BootsFrom v)
    (h : vmStart conf m H = some (H', some .running)) : H' = H.setVmState m .running := by
  rw [vmStart] at h
  cases hm : H.sys.vms m with
  | none => simp [hm] at h
  | some vmem =>
      rw [hm] at h
      obtain ⟨K, hK, h⟩ := Option.bind_eq_some_iff.mp h
      obtain ⟨rfl, -⟩ := Prod.mk.inj (Option.some.inj h)
      have hsame : K = H := run_invariant (I := fun J => J = H) hK rfl fun J v hv J' hJ hstep => by
        rw [hJ] at hstep
        obtain ⟨vcpu, hvcpu, hstep⟩ := Option.bind_eq_some_iff.mp hstep
        rw [if_neg] at hstep
        · exact (Option.some.inj hstep).symm
        · intro hboot
          exact hboots v hv ⟨by rw [hvcpu, Option.map_some, hboot.1], hboot.2⟩
      rw [hsame]

/-! ## Both -/

/-- A machine that is suspended and started again has the same virtual processors attached and
activated as before exactly if there were none, and none that it boots from. -/
theorem restores_iff {blank : Blank gPolicy} {es : List HvEvent}
    (hrun : run (hvStep conf) (init conf blank) es = some H) {cpu : PcpuId} {m : VmId}
    {regs : Option CoreRegs} (hsuspend : vmSuspend conf cpu m regs H = some (H', some .halted))
    (hstart : vmStart conf m H' = some (H'', some .running)) :
    Restores conf m H H'' ↔
      ∀ v ∈ (H.vmcb m).vcpu, (H.life v).state ≠ .activated ∧ ¬ H.BootsFrom v := by
  have hinv := LifeInv.reachable hrun
  have hsuspends := suspends_vmSuspend hinv hsuspend
  have hm : (H.sys.vms m).isSome = true := by
    by_contra hnone
    rw [vmSuspend, Option.not_isSome_iff_eq_none.mp hnone] at hsuspend
    simp at hsuspend
  have hstarts := starts_vmStart hstart
  rw [hsuspends.array] at hstarts
  constructor
  · intro hrestores v hv
    have hactivated : (H.life v).state ≠ .activated := fun hactivated => by
      have hrefused : H'.Refused conf v := fun i hi => by
        rw [(hsuspends.keeps _).findEntry] at hi
        exact (hsuspends.keeps _).state i
          (hinv.activated v i (hinv.live_of_owns ⟨hm, hv⟩) hactivated hi)
      obtain ⟨hout, -⟩ := hstarts.refused v ⟨(hsuspends.suspended v hv).2, hrefused⟩
      exact hout.not_attached ((hrestores v hv).1.mpr hactivated)
    refine ⟨hactivated, fun hboots => hactivated ((hrestores v hv).2.mp ?_)⟩
    exact hstarts.started v hv ((hsuspends.boots v).mpr hboots)
  · intro hnone v hv
    obtain ⟨hstate, hout⟩ := hsuspends.suspended v hv
    have hsame : H'' = H'.setVmState m .running := vmStart_eq (fun w hw hboots =>
      (hnone w (hsuspends.array m ▸ hw)).2 ((hsuspends.boots w).mp hboots)) hstart
    have hne : (H''.life v).state ≠ .activated := by
      rw [hsame]
      exact fun hactivated => VcpuState.noConfusion (hstate.symm.trans hactivated)
    have hdetached : ¬ H''.Attached conf v := by
      rw [hsame]
      exact hout.not_attached
    exact ⟨iff_of_false hdetached (hnone v hv).1, iff_of_false hne (hnone v hv).1⟩

def boot : List HvEvent :=
  [.vmCreate 1 .normal allAlloc, .vmInit 0 (fun _ => 0) 0, .vmStart 0, .schedStart 0 0 0]

theorem restores_iff_boot : ∃ H H' H'',
    run (hvStep sampleConf) (init sampleConf sampleBlank) boot = some H ∧
      vmSuspend sampleConf 0 0 (some default) H = some (H', some .halted) ∧
      vmStart sampleConf 0 H' = some (H'', some .running) ∧
      (Restores sampleConf 0 H H'' ↔
        ∀ v ∈ (H.vmcb 0).vcpu, (H.life v).state ≠ .activated ∧ ¬ H.BootsFrom v) := by
  obtain ⟨H, H', H'', hrun, hsuspend, hstart⟩ : ∃ H H' H'',
      run (hvStep sampleConf) (init sampleConf sampleBlank) boot = some H ∧
        vmSuspend sampleConf 0 0 (some default) H = some (H', some .halted) ∧
        vmStart sampleConf 0 H' = some (H'', some .running) := ⟨_, _, _, rfl, rfl, rfl⟩
  exact ⟨H, H', H'', hrun, hsuspend, hstart, restores_iff hrun hsuspend hstart⟩

/-- The machine has been started again, its virtual processor is activated, and nobody is in
flight. -/
theorem boot_not_restored : ∃ H H' H'',
    run (hvStep sampleConf) (init sampleConf sampleBlank) boot = some H ∧
      (H.vmcb 0).type = .normal ∧ (H.vmcb 0).vcpu = [0] ∧ (H.life 0).state = .activated ∧
      vmSuspend sampleConf 0 0 (some default) H = some (H', some .halted) ∧
      vmStart sampleConf 0 H' = some (H'', some .running) ∧ (H''.life 0).state = .activated ∧
      (H''.sys.sched 0).inflightEntries = [] ∧ ¬ Restores sampleConf 0 H H'' := by
  refine ⟨_, _, _, rfl, rfl, rfl, rfl, rfl, rfl, rfl, rfl, fun hrestores => ?_⟩
  obtain ⟨i, -, hi, -⟩ := (hrestores 0 (List.mem_cons_self ..)).1.mpr rfl
  exact absurd hi List.not_mem_nil

end KHypervisor
