import KHypervisor.Vm.Ownership

/-!
# Saving and copying contexts

`vm_suspend` and `kmus_snapshot` save what a processor shows into every virtual processor of a
machine, although at most one of them runs there; and what the snapshot copies is the trap frame
one instruction further on, for everybody. That is right for the only virtual processor of a
machine: `preservesContexts_iff`.
-/

namespace KHypervisor

open Run Hypervisor

variable {gPolicy : PcpuId → PolicyName}

/-- What `vcpu_save` saves of a virtual processor. -/
structure Context where
  regs : ArchRegs
  lr : ℕ → U32
  vmcr : U32

def Vcpu.context (vcpu : Vcpu) : Context := ⟨vcpu.regs, vcpu.lr, vcpu.vmcr⟩

/-- The context of the virtual processor that runs with the guest state `g` has been saved, and
those of the others of machine `m` are unchanged. -/
structure PreservesContexts (numLr : ℕ) (m : VmId) (c : VcpuId) (g : GuestState)
    (H H' : Hypervisor gPolicy) : Prop where
  own : ∃ vcpu, H'.sys.vcpus c = some vcpu ∧ Saved numLr vcpu g
  others : ∀ w ∈ (H.vmcb m).vcpu, w ≠ c →
    (H'.sys.vcpus w).map Vcpu.context = (H.sys.vcpus w).map Vcpu.context

def ArchRegs.skip (regs : ArchRegs) : ArchRegs :=
  { regs with coreRegs := { regs.coreRegs with pc := regs.coreRegs.pc + 4 } }

/-- Virtual processor `w` has received the context of `v`, behind the trapping instruction if `v`
is the caller `c`. -/
structure ReceivesContext (numLr : ℕ) (c v w : VcpuId) (H : Hypervisor gPolicy) : Prop where
  received : ∃ src dst, H.sys.vcpus v = some src ∧ H.sys.vcpus w = some dst ∧
    dst.regs = (if v = c then src.regs.skip else src.regs) ∧ (∀ i < numLr, dst.lr i = src.lr i) ∧
    dst.vmcr = src.vmcr

/-- Every virtual processor of machine `k` with a counterpart in machine `m` has received its
context. -/
def CopiesContexts (numLr : ℕ) (m k : VmId) (c : VcpuId) (H : Hypervisor gPolicy) : Prop :=
  ∀ vw ∈ (H.vmcb m).vcpu.zip (H.vmcb k).vcpu, ReceivesContext numLr c vw.1 vw.2 H

/-! ## Saving -/

theorem saveLrs_of_le (numLr : ℕ) (g : Gich) (lr : ℕ → U32) {i : ℕ} (hi : numLr ≤ i) :
    saveLrs numLr g lr i = lr i := by
  induction numLr with
  | zero => rfl
  | succ n ih =>
      rw [saveLrs, List.range_succ, List.foldl_append, List.foldl_cons, List.foldl_nil,
        Function.update_of_ne (Nat.ne_of_gt hi)]
      exact ih (Nat.le_of_succ_le hi)

/-- The guest state `g` has been saved over the context of a virtual processor. -/
structure Overwrites (numLr : ℕ) (g : GuestState) (vcpu vcpu' : Vcpu) : Prop where
  saved : Saved numLr vcpu' g
  rest : ∀ i, numLr ≤ i → vcpu'.lr i = vcpu.lr i
  pendingIrqs : vcpu'.pendingIrqs = vcpu.pendingIrqs

theorem Overwrites.trans {numLr : ℕ} {g : GuestState} {vcpu vcpu' vcpu'' : Vcpu}
    (h : Overwrites numLr g vcpu vcpu') (h' : Overwrites numLr g vcpu' vcpu'') :
    Overwrites numLr g vcpu vcpu'' :=
  ⟨h'.saved, fun i hi => (h'.rest i hi).trans (h.rest i hi), h'.pendingIrqs.trans h.pendingIrqs⟩

/-- A context that is overwritten stays the same if it is the one that is saved. -/
theorem Overwrites.context_eq_iff {numLr : ℕ} {g : GuestState} {vcpu vcpu' : Vcpu}
    (h : Overwrites numLr g vcpu vcpu') : vcpu'.context = vcpu.context ↔ Saved numLr vcpu g := by
  rw [Vcpu.context, Vcpu.context, Context.mk.injEq]
  constructor
  · rintro ⟨hregs, hlr, hvmcr⟩
    exact ⟨hregs ▸ h.saved.regs, fun i hi => hlr ▸ h.saved.lr i hi, hvmcr ▸ h.saved.vmcr⟩
  · intro hsaved
    refine ⟨h.saved.regs.trans hsaved.regs.symm, funext fun i => ?_,
      h.saved.vmcr.trans hsaved.vmcr.symm⟩
    rcases Nat.lt_or_ge i numLr with hi | hi
    · exact (h.saved.lr i hi).trans (hsaved.lr i hi).symm
    · exact h.rest i hi

/-- The processor shows the guest state `g`, but for the trap frame. -/
structure Shows (g : GuestState) (hw : Hardware) : Prop where
  cp15 : saveCp15 hw.regs = saveCp15 g.regs
  banked : saveBankedRegs hw.regs = saveBankedRegs g.regs
  lr : hw.gich.lr = g.lr
  vmcr : hw.gich.vmcr = g.vmcr

variable {conf : HvConf} {H H' : Hypervisor gPolicy} {cpu : PcpuId} {g : GuestState}

theorem Shows.overwrites (h : Shows g (H.sys.hw cpu)) (numLr : ℕ) (vcpu : Vcpu) :
    Overwrites numLr g vcpu ((H.sys.machine cpu).saved numLr (some g.frame) vcpu) := by
  refine ⟨⟨?_, fun i hi => ?_, h.vmcr⟩, fun i hi => saveLrs_of_le _ _ _ hi, rfl⟩
  · exact congrArg₂ (ArchRegs.mk g.frame) h.cp15 h.banked
  · exact (saveLrs_eq _ _ _ hi).trans (congrFun h.lr i)

/-- From `H` to `H'` the guest state `g` has been saved into the virtual processors in `vs`. -/
structure SavesInto (numLr : ℕ) (cpu : PcpuId) (g : GuestState) (vs : List VcpuId)
    (H H' : Hypervisor gPolicy) : Prop where
  shows : Shows g (H'.sys.hw cpu)
  vms : H'.sys.vms = H.sys.vms
  vmcb : H'.vmcb = H.vmcb
  others : ∀ w ∉ vs, H'.sys.vcpus w = H.sys.vcpus w
  saved : ∀ w ∈ vs, ∃ vcpu vcpu', H.sys.vcpus w = some vcpu ∧ H'.sys.vcpus w = some vcpu' ∧
    Overwrites numLr g vcpu vcpu'

theorem SavesInto.concat {numLr : ℕ} {vs : List VcpuId} {v : VcpuId} {vcpu : Vcpu}
    {K : Hypervisor gPolicy} (h : SavesInto numLr cpu g vs H K) (hv : K.sys.vcpus v = some vcpu)
    (hvcpus : H'.sys.vcpus = Function.update K.sys.vcpus v
      (some ((K.sys.machine cpu).saved numLr (some g.frame) vcpu)))
    (hshows : Shows g (H'.sys.hw cpu)) (hvms : H'.sys.vms = K.sys.vms) (hvmcb : H'.vmcb = K.vmcb) :
    SavesInto numLr cpu g (vs ++ [v]) H H' := by
  have hover := h.shows.overwrites numLr vcpu
  refine ⟨hshows, hvms.trans h.vms, hvmcb.trans h.vmcb, fun w hw => ?_, fun w hw => ?_⟩
  · simp only [List.mem_append, List.mem_singleton, not_or] at hw
    rw [hvcpus, Function.update_of_ne hw.2]
    exact h.others w hw.1
  · by_cases hwv : w = v
    · subst hwv
      rw [hvcpus, Function.update_self]
      by_cases hmem : w ∈ vs
      · obtain ⟨first, before, hfirst, hbefore, hold⟩ := h.saved w hmem
        obtain rfl := Option.some.inj (hbefore.symm.trans hv)
        exact ⟨first, _, hfirst, rfl, hold.trans hover⟩
      · exact ⟨vcpu, _, (h.others w hmem).symm.trans hv, rfl, hover⟩
    · rw [hvcpus, Function.update_of_ne hwv]
      exact h.saved w ((List.mem_append.mp hw).resolve_right (by simpa using hwv))

theorem savesInto_vmSuspend {m : VmId} {frame : CoreRegs}
    (h : vmSuspend conf cpu m (some frame) H = some (H', some .halted)) :
    ∃ K, SavesInto conf.numLr cpu ((H.sys.machine cpu).guestState frame) (H.vmcb m).vcpu H K ∧
      H'.sys = K.sys := by
  rw [vmSuspend] at h
  cases hm : H.sys.vms m with
  | none => simp [hm] at h
  | some vmem =>
      rw [hm] at h
      obtain ⟨K, hK, h⟩ := Option.bind_eq_some_iff.mp h
      obtain ⟨rfl, -⟩ := Prod.mk.inj (Option.some.inj h)
      have hfirst : SavesInto conf.numLr cpu ((H.sys.machine cpu).guestState frame) [] H
          (H.setMachine cpu (vmSave m (H.sys.machine cpu))) := by
        refine ⟨?_, rfl, rfl, fun _ _ => rfl, fun _ hw => absurd hw List.not_mem_nil⟩
        -- The register that `vm_save` writes is none of those that are saved.
        rw [setMachine_hw]
        exact ⟨rfl, rfl, rfl, rfl⟩
      refine ⟨K, run_induction (I := fun vs J => SavesInto conf.numLr cpu
        ((H.sys.machine cpu).guestState frame) vs H J) hfirst (fun vs v J J' _ hJ hstep => ?_) hK,
        rfl⟩
      obtain ⟨mach, hsave, hstep⟩ := Option.bind_eq_some_iff.mp hstep
      obtain ⟨s, -, hstep⟩ := Option.bind_eq_some_iff.mp hstep
      obtain ⟨vcpu, hv, rfl⟩ := Option.map_eq_some_iff.mp hsave
      rw [← Option.some.inj hstep]
      refine hJ.concat hv rfl ?_ rfl rfl
      have hhw := setMachine_hw J cpu { (J.sys.machine cpu).setVcpu v
        ((J.sys.machine cpu).saved conf.numLr (some frame) vcpu) with
          gich := gichDisable (J.sys.machine cpu).gich }
      exact hhw ▸ ⟨hJ.shows.cp15, hJ.shows.banked, hJ.shows.lr, hJ.shows.vmcr⟩

theorem savesInto_snapshot {m : VmId} {frame : CoreRegs}
    (h : run (snapshotVcpu conf cpu frame) H (H.vmcb m).vcpu = some H') :
    SavesInto conf.numLr cpu ((H.sys.machine cpu).guestState frame) (H.vmcb m).vcpu H H' := by
  refine run_induction (I := fun vs J => SavesInto conf.numLr cpu
    ((H.sys.machine cpu).guestState frame) vs H J) ⟨⟨rfl, rfl, rfl, rfl⟩, rfl, rfl, fun _ _ => rfl,
      fun _ hw => absurd hw List.not_mem_nil⟩ (fun vs v J J' _ hJ hstep => ?_) h
  obtain ⟨vcpu, hv, rfl⟩ := Option.map_eq_some_iff.mp hstep
  exact hJ.concat hv rfl hJ.shows rfl rfl

/-! ## Copying -/

theorem copyLrs_eq (numLr : ℕ) (src dst : ℕ → U32) {i : ℕ} (hi : i < numLr) :
    copyLrs numLr src dst i = src i :=
  saveLrs_eq numLr { (default : Gich) with lr := src } dst hi

/-- The loop of `vm_copy` copies from the first list to the second, place by place. -/
theorem copyVcpus_spec {regs : CoreRegs} {vs ws : List VcpuId} (hws : ws.Nodup)
    (hdisjoint : ∀ v ∈ vs, v ∉ ws) (h : copyVcpus conf regs vs ws H = some H') :
    vs.length ≤ ws.length ∧ (∀ w ∉ ws, H'.sys.vcpus w = H.sys.vcpus w) ∧
      ∀ vw ∈ vs.zip ws, ∃ src dst, H.sys.vcpus vw.1 = some src ∧ H.sys.vcpus vw.2 = some dst ∧
        H'.sys.vcpus vw.2 = some (vcpuCopy conf.numLr src dst regs) := by
  induction vs generalizing ws H with
  | nil =>
      rw [copyVcpus, Option.some.injEq] at h
      rw [← h]
      exact ⟨Nat.zero_le _, fun _ _ => rfl, fun vw hvw => by simp at hvw⟩
  | cons v vs ih =>
      cases ws with
      | nil => simp [copyVcpus] at h
      | cons w ws =>
          obtain ⟨src, hsrc, h⟩ := Option.bind_eq_some_iff.mp h
          obtain ⟨dst, hdst, h⟩ := Option.bind_eq_some_iff.mp h
          obtain ⟨hw, hws⟩ := List.nodup_cons.mp hws
          obtain ⟨hlength, hothers, hcopied⟩ := ih hws (fun v' hv' hmem =>
            hdisjoint v' (List.mem_cons_of_mem _ hv') (List.mem_cons_of_mem _ hmem)) h
          refine ⟨Nat.succ_le_succ hlength, fun w' hw' => ?_, fun vw hvw => ?_⟩
          · rw [List.mem_cons, not_or] at hw'
            rw [hothers w' hw'.2, setVcpu_vcpus, if_neg hw'.1]
          · rcases List.mem_cons.mp hvw with rfl | hvw
            · exact ⟨src, dst, hsrc, hdst, by rw [hothers w hw, setVcpu_vcpus, if_pos rfl]⟩
            · obtain ⟨src', dst', hsrc', hdst', hcopy⟩ := hcopied vw hvw
              obtain ⟨hmem₁, hmem₂⟩ := List.of_mem_zip hvw
              have hne₁ : vw.1 ≠ w := fun heq => hdisjoint vw.1 (List.mem_cons_of_mem _ hmem₁)
                (heq ▸ List.mem_cons_self)
              have hne₂ : vw.2 ≠ w := fun heq => hw (heq ▸ hmem₂)
              rw [setVcpu_vcpus, if_neg hne₁] at hsrc'
              rw [setVcpu_vcpus, if_neg hne₂] at hdst'
              exact ⟨src', dst', hsrc', hdst', hcopy⟩

/-- From `H` to `H'` what processor `cpu` shows has been saved into the virtual processors of
machine `m`, and from there copied into those of machine `k`. -/
structure TakesSnapshot (numLr : ℕ) (cpu : PcpuId) (m k : VmId) (frame : CoreRegs)
    (H H' : Hypervisor gPolicy) : Prop where
  array : ∀ j, (H'.vmcb j).vcpu = (H.vmcb j).vcpu
  length : (H.vmcb m).vcpu.length ≤ (H.vmcb k).vcpu.length
  saved : ∀ v ∈ (H.vmcb m).vcpu, ∃ vcpu vcpu', H.sys.vcpus v = some vcpu ∧
    H'.sys.vcpus v = some vcpu' ∧ Overwrites numLr ((H.sys.machine cpu).guestState frame) vcpu vcpu'
  copied : ∀ vw ∈ (H.vmcb m).vcpu.zip (H.vmcb k).vcpu, ∃ src dst, H'.sys.vcpus vw.1 = some src ∧
    H.sys.vcpus vw.2 = some dst ∧ H'.sys.vcpus vw.2 = some (vcpuCopy numLr src dst frame)

theorem takesSnapshot_kmusSnapshot (hinv : LifeInv conf H) {m k : VmId} {frame : CoreRegs}
    (hne : m ≠ k) (hk : (H.sys.vms k).isSome = true)
    (h : kmusSnapshot conf cpu m k frame H = some H') :
    TakesSnapshot conf.numLr cpu m k frame H H' := by
  have harray := (sameFrame_kmusSnapshot h).array
  obtain ⟨vmem, hm, h⟩ := Option.bind_eq_some_iff.mp h
  obtain ⟨K, hK, h⟩ := Option.bind_eq_some_iff.mp h
  obtain ⟨vmemK, hvmemK⟩ := Option.isSome_iff_exists.mp hk
  have hsaves := savesInto_snapshot hK
  have hlive : (H.sys.vms m).isSome = true := by rw [hm, Option.isSome_some]
  have hdisjoint : ∀ v ∈ (H.vmcb m).vcpu, v ∉ (H.vmcb k).vcpu := fun v hv hv' =>
    hne (hinv.owner_unique ⟨hlive, hv⟩ ⟨hk, hv'⟩)
  obtain ⟨_, _, L, dma, -, -, hL, -, hH'⟩ := (vmCopy_cases h).resolve_left fun hmissing => by
    rw [hsaves.vms, hm, hvmemK] at hmissing
    simp at hmissing
  rw [hsaves.vmcb] at hL
  obtain ⟨hlength, hothers, hcopied⟩ := copyVcpus_spec (hinv.nodup k hk) hdisjoint hL
  have hvcpus : H'.sys.vcpus = L.sys.vcpus := by rw [hH']; rfl
  refine ⟨harray, hlength, fun v hv => ?_, fun vw hvw => ?_⟩
  · rw [hvcpus, hothers v (hdisjoint v hv)]
    exact hsaves.saved v hv
  · obtain ⟨src, dst, hsrc, hdst, hcopy⟩ := hcopied vw hvw
    obtain ⟨hv, hw⟩ := List.of_mem_zip hvw
    rw [hvcpus, hothers vw.1 (hdisjoint _ hv)]
    have hnot : vw.2 ∉ (H.vmcb m).vcpu := fun hmem => hdisjoint _ hmem hw
    exact ⟨src, dst, hsrc, (hsaves.others _ hnot).symm.trans hdst, hcopy⟩

/-! ## What becomes of the contexts -/

/-- Whoever is overwritten keeps its context if it had saved the same before. -/
theorem preservesContexts_iff_saved {m : VmId} {c : VcpuId} {numLr : ℕ}
    (hc : c ∈ (H.vmcb m).vcpu) (hsaved : ∀ w ∈ (H.vmcb m).vcpu, ∃ vcpu vcpu',
      H.sys.vcpus w = some vcpu ∧ H'.sys.vcpus w = some vcpu' ∧ Overwrites numLr g vcpu vcpu') :
    PreservesContexts numLr m c g H H' ↔ ∀ w ∈ (H.vmcb m).vcpu, w ≠ c →
      ∃ vcpu, H.sys.vcpus w = some vcpu ∧ Saved numLr vcpu g := by
  have hiff : ∀ w ∈ (H.vmcb m).vcpu,
      ((H'.sys.vcpus w).map Vcpu.context = (H.sys.vcpus w).map Vcpu.context ↔
        ∃ vcpu, H.sys.vcpus w = some vcpu ∧ Saved numLr vcpu g) := fun w hw => by
    obtain ⟨vcpu, vcpu', hvcpu, hvcpu', hover⟩ := hsaved w hw
    rw [hvcpu, hvcpu', Option.map_some, Option.map_some, Option.some.injEq, hover.context_eq_iff]
    simp
  constructor
  · intro h w hw hne
    exact (hiff w hw).mp (h.others w hw hne)
  · intro h
    obtain ⟨vcpu, vcpu', -, hvcpu', hover⟩ := hsaved c hc
    exact ⟨⟨vcpu', hvcpu', hover.saved⟩, fun w hw hne => (hiff w hw).mpr (h w hw hne)⟩

/-- A copy has the context of its source, behind the trapping instruction. -/
theorem receivesContext_iff {numLr : ℕ} {c v w : VcpuId} {frame : CoreRegs} {src dst : Vcpu}
    (hsrc : H'.sys.vcpus v = some src) (hframe : src.regs.coreRegs = frame)
    (hdst : H'.sys.vcpus w = some (vcpuCopy numLr src dst frame)) :
    ReceivesContext numLr c v w H' ↔ v = c := by
  have hregs : (vcpuCopy numLr src dst frame).regs = src.regs.skip := by
    rw [vcpuCopy, archRegsCopy_eq, ArchRegs.skip, hframe]
  constructor
  · rintro ⟨src', dst', hsrc', hdst', hcopied, -, -⟩
    by_contra hne
    obtain rfl := Option.some.inj (hsrc.symm.trans hsrc')
    obtain rfl := Option.some.inj (hdst.symm.trans hdst')
    rw [if_neg hne, hregs] at hcopied
    have hpc : src.regs.coreRegs.pc + 4 = src.regs.coreRegs.pc :=
      congrArg (fun regs => regs.coreRegs.pc) hcopied
    exact absurd hpc (by simp)
  · intro hv
    refine ⟨src, _, hsrc, hdst, ?_, fun i hi => copyLrs_eq numLr src.lr dst.lr hi, rfl⟩
    rw [if_pos hv, hregs]

/-- Suspending a machine preserves the contexts of all its virtual processors but the caller exactly
if they had saved what the processor shows; a snapshot preserves them and hands each context to its
counterpart exactly if there is nobody but the caller. -/
theorem preservesContexts_iff {blank : Blank gPolicy} {es : List HvEvent}
    (hrun : run (hvStep conf) (init conf blank) es = some H) (cpu : PcpuId) {m : VmId} {c : VcpuId}
    (hc : H.Owns m c) (frame : CoreRegs) :
    (∀ H', vmSuspend conf cpu m (some frame) H = some (H', some .halted) →
      (PreservesContexts conf.numLr m c ((H.sys.machine cpu).guestState frame) H H' ↔
        ∀ w ∈ (H.vmcb m).vcpu, w ≠ c → ∃ vcpu, H.sys.vcpus w = some vcpu ∧
          Saved conf.numLr vcpu ((H.sys.machine cpu).guestState frame))) ∧
    ∀ k H', m ≠ k → (H.sys.vms k).isSome = true → kmusSnapshot conf cpu m k frame H = some H' →
      (PreservesContexts conf.numLr m c ((H.sys.machine cpu).guestState frame) H H' ∧
        CopiesContexts conf.numLr m k c H' ↔ ∀ w ∈ (H.vmcb m).vcpu, w = c) := by
  have hinv := LifeInv.reachable hrun
  refine ⟨fun H' hsuspend => ?_, fun k H' hne hk hsnapshot => ?_⟩
  · obtain ⟨K, hsaves, hsys⟩ := savesInto_vmSuspend hsuspend
    exact preservesContexts_iff_saved hc.2 fun w hw => by
      rw [hsys]
      exact hsaves.saved w hw
  · have htakes := takesSnapshot_kmusSnapshot hinv hne hk hsnapshot
    rw [preservesContexts_iff_saved hc.2 htakes.saved, CopiesContexts, htakes.array, htakes.array]
    have hcopies : ∀ vw ∈ (H.vmcb m).vcpu.zip (H.vmcb k).vcpu,
        (ReceivesContext conf.numLr c vw.1 vw.2 H' ↔ vw.1 = c) := fun vw hvw => by
      obtain ⟨src, dst, hsrc, -, hdst⟩ := htakes.copied vw hvw
      obtain ⟨vcpu, vcpu', -, hvcpu', hover⟩ := htakes.saved vw.1 (List.of_mem_zip hvw).1
      obtain rfl := Option.some.inj (hsrc.symm.trans hvcpu')
      exact receivesContext_iff hsrc (by rw [hover.saved.regs]; rfl) hdst
    constructor
    · rintro ⟨-, hall⟩ w hw
      rw [← List.map_fst_zip htakes.length] at hw
      obtain ⟨vw, hvw, rfl⟩ := List.mem_map.mp hw
      exact (hcopies vw hvw).mp (hall vw hvw)
    · intro hall
      exact ⟨fun w hw hne => absurd (hall w hw) hne, fun vw hvw =>
        (hcopies vw hvw).mpr (hall _ (List.of_mem_zip hvw).1)⟩

/-- A machine and its backup with two virtual processors each. The first one is running, the second
one waits to be started. -/
def bootTwo : List HvEvent :=
  [.vmCreate 2 .normal allAlloc, .vmCreate 2 .kmus allAlloc, .vmInit 0 (fun _ => 0) 0,
    .vmInit 0 (fun _ => 0) 1, .vmStart 0, .schedStart 0 0 0]

/-- The frame of a guest that has trapped at address `0x1000`. -/
def trapFrame : CoreRegs := { (default : CoreRegs) with pc := 0x1000 }

theorem preservesContexts_iff_bootTwo : ∃ H,
    run (hvStep sampleConf) (init sampleConf sampleBlank) bootTwo = some H ∧ H.Owns 0 0 ∧
      (∀ H', vmSuspend sampleConf 0 0 (some trapFrame) H = some (H', some .halted) →
        (PreservesContexts 4 0 0 ((H.sys.machine 0).guestState trapFrame) H H' ↔
          ∀ w ∈ (H.vmcb 0).vcpu, w ≠ 0 → ∃ vcpu, H.sys.vcpus w = some vcpu ∧
            Saved 4 vcpu ((H.sys.machine 0).guestState trapFrame))) ∧
      ∀ k H', 0 ≠ k → (H.sys.vms k).isSome = true →
        kmusSnapshot sampleConf 0 0 k trapFrame H = some H' →
        (PreservesContexts 4 0 0 ((H.sys.machine 0).guestState trapFrame) H H' ∧
          CopiesContexts 4 0 k 0 H' ↔ ∀ w ∈ (H.vmcb 0).vcpu, w = 0) := by
  obtain ⟨H, hrun, hc⟩ : ∃ H,
      run (hvStep sampleConf) (init sampleConf sampleBlank) bootTwo = some H ∧ H.Owns 0 0 :=
    ⟨_, rfl, rfl, List.mem_cons_self⟩
  exact ⟨H, hrun, hc, preservesContexts_iff hrun 0 hc trapFrame⟩

/-- Both a suspension and a snapshot by the first virtual processor put its trap frame into the
saved context of the second one, and in the snapshot both counterparts go on at the same address. -/
theorem bootTwo_overwrites : ∃ H H₁ H₂,
    run (hvStep sampleConf) (init sampleConf sampleBlank) bootTwo = some H ∧
      (H.sys.sched 0).currentVcpuid = 0 ∧ (H.vmcb 0).vcpu = [0, 1] ∧ (H.vmcb 1).vcpu = [2, 3] ∧
      vmSuspend sampleConf 0 0 (some trapFrame) H = some (H₁, some .halted) ∧
      ¬ PreservesContexts 4 0 0 ((H.sys.machine 0).guestState trapFrame) H H₁ ∧
      kmusSnapshot sampleConf 0 0 1 trapFrame H = some H₂ ∧
      ¬ PreservesContexts 4 0 0 ((H.sys.machine 0).guestState trapFrame) H H₂ ∧
      ¬ CopiesContexts 4 0 1 0 H₂ := by
  have hpc : ∀ {H H' : Hypervisor fun _ => PolicyName.rr} {g : GuestState},
      PreservesContexts 4 0 0 g H H' → 1 ∈ (H.vmcb 0).vcpu →
        (H'.sys.vcpus 1).map (fun vcpu => vcpu.regs.coreRegs.pc) =
          (H.sys.vcpus 1).map fun vcpu => vcpu.regs.coreRegs.pc := fun h hmem => by
    have heq := congrArg (Option.map fun context => context.regs.coreRegs.pc)
      (h.others 1 hmem Nat.one_ne_zero)
    rwa [Option.map_map, Option.map_map] at heq
  refine ⟨_, _, _, rfl, rfl, rfl, rfl, rfl, fun h => ?_, rfl, fun h => ?_, fun h => ?_⟩
  · have heq : some (0x1000 : U32) = some 0 := hpc h (List.mem_cons_of_mem _ List.mem_cons_self)
    exact absurd heq (by decide)
  · have heq : some (0x1000 : U32) = some 0 := hpc h (List.mem_cons_of_mem _ List.mem_cons_self)
    exact absurd heq (by decide)
  · obtain ⟨src, dst, hsrc, hdst, hregs, -, -⟩ :=
      h (1, 3) (List.mem_cons_of_mem _ List.mem_cons_self)
    have hsrcPc : some (0x1000 : U32) = some src.regs.coreRegs.pc :=
      congrArg (Option.map fun vcpu : Vcpu => vcpu.regs.coreRegs.pc) hsrc
    have hdstPc : some (0x1004 : U32) = some dst.regs.coreRegs.pc :=
      congrArg (Option.map fun vcpu : Vcpu => vcpu.regs.coreRegs.pc) hdst
    rw [if_neg Nat.one_ne_zero] at hregs
    rw [hregs, ← hsrcPc] at hdstPc
    exact absurd hdstPc (by decide)

end KHypervisor
