import KHypervisor.Vm.Snapshot

/-!
# What a backup machine takes over

The snapshot of a machine copies registers and maps, but neither the queue of pending interrupts nor
the virtual timer. The backup has these as the machine has them exactly if they were the same
before the snapshot: `takesOver_iff`.
-/

namespace KHypervisor

open Run Hypervisor

variable {gPolicy : PcpuId → PolicyName}

/-- Virtual processors `v` and `w` wait for the same events: the same interrupts are pending, and
their virtual timers are the same. -/
structure SharesEvents (v w : VcpuId) (H : Hypervisor gPolicy) : Prop where
  pendingIrqs : ∃ src dst, H.sys.vcpus v = some src ∧ H.sys.vcpus w = some dst ∧
    ∀ i < virqMaxEntries, dst.pendingIrqs i = src.pendingIrqs i
  pCtl : (H.life w).vtimer.pCtl = (H.life v).vtimer.pCtl
  pCval : (H.life w).vtimer.pCval = (H.life v).vtimer.pCval
  vCtl : (H.life w).vtimer.vCtl = (H.life v).vtimer.vCtl
  vCval : (H.life w).vtimer.vCval = (H.life v).vtimer.vCval
  pCtOffset : (H.life w).vtimer.pCtOffset = (H.life v).vtimer.pCtOffset
  armed : (H.timers.timer (.vtimer w)).state = 1 ↔ (H.timers.timer (.vtimer v)).state = 1

/-- Virtual processor `w` can take over from `v`: it has the same list registers, interrupt map,
coprocessor and banked registers, and waits for the same events. -/
structure TakesOver (numLr : ℕ) (v w : VcpuId) (H : Hypervisor gPolicy) : Prop
    extends SharesEvents v w H where
  copied : ∃ src dst, H.sys.vcpus v = some src ∧ H.sys.vcpus w = some dst ∧
    (∀ i < numLr, dst.lr i = src.lr i) ∧ dst.vmcr = src.vmcr ∧ dst.map = src.map ∧
    dst.regs.cp15 = src.regs.cp15 ∧ dst.regs.bankedRegs = src.regs.bankedRegs

variable {conf : HvConf} {H H' : Hypervisor gPolicy}

theorem copyVcpus_life {regs : CoreRegs} {vs ws : List VcpuId}
    (h : copyVcpus conf regs vs ws H = some H') : H'.life = H.life := by
  induction vs generalizing ws H with
  | nil =>
      rw [copyVcpus] at h
      rw [← Option.some.inj h]
  | cons v vs ih =>
      cases ws with
      | nil => simp [copyVcpus] at h
      | cons w ws =>
          obtain ⟨src, -, h⟩ := Option.bind_eq_some_iff.mp h
          obtain ⟨dst, -, h⟩ := Option.bind_eq_some_iff.mp h
          have hrest := ih h
          exact hrest

theorem kmusSnapshot_life {cpu : PcpuId} {m k : VmId} {frame : CoreRegs}
    (h : kmusSnapshot conf cpu m k frame H = some H') : H'.life = H.life := by
  obtain ⟨vmem, -, h⟩ := Option.bind_eq_some_iff.mp h
  obtain ⟨K, hK, h⟩ := Option.bind_eq_some_iff.mp h
  have hsaved : K.life = H.life := run_invariant (I := fun J => J.life = H.life) hK rfl
    fun J v _ J' hJ hstep => by
      obtain ⟨vcpu, -, rfl⟩ := Option.map_eq_some_iff.mp hstep
      exact hJ
  rcases vmCopy_cases h with ⟨rfl, -⟩ | ⟨_, _, L, dma, -, -, hL, -, rfl⟩
  · exact hsaved
  · exact (copyVcpus_life hL).trans hsaved

/-- After the snapshot of a machine with one virtual processor the backup can take over exactly if
it waited for the same events before. -/
theorem takesOver_iff {blank : Blank gPolicy} {es : List HvEvent}
    (hrun : run (hvStep conf) (init conf blank) es = some H) {cpu : PcpuId} {m k : VmId}
    {v w : VcpuId} {ws : List VcpuId} {frame : CoreRegs} (hv : (H.vmcb m).vcpu = [v])
    (hk : (H.sys.vms k).isSome = true) (hw : (H.vmcb k).vcpu = w :: ws) (hne : m ≠ k)
    (h : kmusSnapshot conf cpu m k frame H = some H') :
    TakesOver conf.numLr v w H' ↔ SharesEvents v w H := by
  have htakes := takesSnapshot_kmusSnapshot (LifeInv.reachable hrun) hne hk h
  have hlife := kmusSnapshot_life h
  have htimers := (sameFrame_kmusSnapshot h).timers
  obtain ⟨before, src, hbefore, hsrc, hover⟩ := htakes.saved v (by
    rw [hv]
    exact List.mem_cons_self)
  obtain ⟨src', dst, hsrc', hdst, hcopy⟩ := htakes.copied (v, w) (by
    rw [hv, hw]
    exact List.mem_cons_self)
  obtain rfl := Option.some.inj (hsrc.symm.trans hsrc')
  constructor
  · intro hover'
    obtain ⟨src', dst', hsrc', hdst', hpending⟩ := hover'.pendingIrqs
    obtain rfl := Option.some.inj (hsrc.symm.trans hsrc')
    obtain rfl := Option.some.inj (hcopy.symm.trans hdst')
    have hevents := hover'.toSharesEvents
    refine ⟨⟨before, dst, hbefore, hdst, fun i hi => ?_⟩, hlife ▸ hevents.pCtl,
      hlife ▸ hevents.pCval, hlife ▸ hevents.vCtl, hlife ▸ hevents.vCval, hlife ▸ hevents.pCtOffset,
      htimers ▸ hevents.armed⟩
    exact (hpending i hi).trans (congrFun hover.pendingIrqs i)
  · intro hevents
    obtain ⟨before', dst', hbefore', hdst', hpending⟩ := hevents.pendingIrqs
    obtain rfl := Option.some.inj (hbefore.symm.trans hbefore')
    obtain rfl := Option.some.inj (hdst.symm.trans hdst')
    refine ⟨⟨⟨src, _, hsrc, hcopy, fun i hi => ?_⟩, hlife ▸ hevents.pCtl, hlife ▸ hevents.pCval,
      hlife ▸ hevents.vCtl, hlife ▸ hevents.vCval, hlife ▸ hevents.pCtOffset,
      htimers ▸ hevents.armed⟩,
      ⟨src, _, hsrc, hcopy, fun i hi => copyLrs_eq _ _ _ hi, rfl, rfl, rfl, rfl⟩⟩
    exact (hpending i hi).trans (congrFun hover.pendingIrqs i).symm

def timerPending : List HvEvent :=
  [.vmCreate 1 .normal allAlloc, .vmCreate 1 .kmus allAlloc, .vmInit 0 (fun _ => 0) 0,
    .vmInit 0 (fun _ => 0) 1, .vmStart 0, .schedStart 0 0 0,
    .timerAccess32 0 0 false Cp32.cntpTval.code 5]

theorem takesOver_iff_timerPending : ∃ H H',
    run (hvStep sampleConf) (init sampleConf sampleBlank) timerPending = some H ∧
      (H.vmcb 0).vcpu = [0] ∧ (H.vmcb 1).vcpu = [1] ∧
      kmusSnapshot sampleConf 0 0 1 default H = some H' ∧
      (TakesOver 4 0 1 H' ↔ SharesEvents 0 1 H) := by
  obtain ⟨H, H', hrun, hv, hw, hk, h⟩ : ∃ H H',
      run (hvStep sampleConf) (init sampleConf sampleBlank) timerPending = some H ∧
        (H.vmcb 0).vcpu = [0] ∧ (H.vmcb 1).vcpu = [1] ∧ (H.sys.vms 1).isSome = true ∧
        kmusSnapshot sampleConf 0 0 1 default H = some H' := ⟨_, _, rfl, rfl, rfl, rfl, rfl⟩
  exact ⟨H, H', hrun, hv, hw, h, takesOver_iff hrun hv hk hw Nat.zero_ne_one h⟩

/-- The timer that the guest has armed is not armed for the backup, nor has this its compare
value. -/
theorem timerPending_not_taken : ∃ H H',
    run (hvStep sampleConf) (init sampleConf sampleBlank) timerPending = some H ∧
      (H.vmcb 0).type = .normal ∧ (H.vmcb 0).vcpu = [0] ∧ (H.vmcb 1).vcpu = [1] ∧
      kmusSnapshot sampleConf 0 0 1 default H = some H' ∧
      (H'.life 0).vtimer.pCval = 5 ∧ (H'.life 1).vtimer.pCval = 0 ∧
      (H'.timers.timer (.vtimer 0)).state = 1 ∧ (H'.timers.timer (.vtimer 1)).state = 0 ∧
      ¬ TakesOver 4 0 1 H' := by
  refine ⟨_, _, rfl, rfl, rfl, rfl, rfl, rfl, rfl, rfl, rfl, fun h => ?_⟩
  have heq : (0 : U64) = 5 := h.pCval
  exact absurd heq (by decide)

end KHypervisor
