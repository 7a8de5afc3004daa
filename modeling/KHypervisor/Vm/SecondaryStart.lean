import KHypervisor.Vm.Restart

/-!
# Starting secondary virtual processors

A guest starts its secondary virtual processors by `PSCI_CPU_ON` or by a write to `SYS_FLAGSSET`.
Both write the entry point before they call `sched_vcpu_attach`, and neither looks at what that
returns. A virtual processor that cannot be attached goes on at another place, is said to be
activated, and the guest is told that all went well (`undisturbed_iff`).
-/

namespace KHypervisor

open Run Hypervisor Scheduler

/-! ## One scheduler -/

section

variable {ED SD : Type}

/-- The scheduler and its policy have the virtual processor. -/
def AttachedIn (refs : SD → List EntryRef) (s : Scheduler ED SD) (v : VcpuId) : Prop :=
  ∃ i, findEntry s v = some i ∧ i ∈ s.inflightEntries ∧ i ∈ refs s.sd

/-- The virtual processor is registered, and its entry is in the state in which `sched_vcpu_attach`
takes it. -/
def Attachable (s : Scheduler ED SD) (v : VcpuId) : Prop :=
  ∃ i, findEntry s v = some i ∧ (s.entry i).state = .detached

variable {policy : SchedPolicy ED SD} {refs : SD → List EntryRef} {s s' : Scheduler ED SD}
  {v w : VcpuId} {i : EntryRef}

theorem attachedIn_attaches_self (hpolicy : PolicySpec policy refs) (h : Attaches policy i s s')
    (hi : findEntry s v = some i) : AttachedIn refs s' v := by
  refine ⟨i, by rwa [h.findEntry], ?_, ?_⟩
  · rw [h.inflight]
    exact List.mem_append_right _ List.mem_cons_self
  · rw [h.sd]
    exact (hpolicy.mem_attach i _ i).mpr (.inr rfl)

theorem ne_of_findEntry {j : EntryRef} (hi : findEntry s v = some i) (hj : findEntry s w = some j)
    (hw : w ≠ v) : j ≠ i := by
  rintro rfl
  exact hw ((findEntry_some hj).2.symm.trans (findEntry_some hi).2)

theorem attachedIn_attaches_of_ne (hpolicy : PolicySpec policy refs) (h : Attaches policy i s s')
    (hi : findEntry s v = some i) (hw : w ≠ v) : AttachedIn refs s' w ↔ AttachedIn refs s w := by
  refine exists_congr fun j => ?_
  rw [h.findEntry]
  refine and_congr_right fun hj => ?_
  have hne := ne_of_findEntry hi hj hw
  rw [h.inflight, h.sd, hpolicy.mem_attach, setState_sd, or_iff_left hne, List.mem_append,
    List.mem_singleton, or_iff_left hne]

theorem attachable_attaches_of_ne (h : Attaches policy i s s') (hi : findEntry s v = some i)
    (hw : w ≠ v) : Attachable s' w ↔ Attachable s w := by
  refine exists_congr fun j => ?_
  rw [h.findEntry]
  refine and_congr_right fun hj => ?_
  rw [h.state, if_neg (ne_of_findEntry hi hj hw)]

/-- After an attachment there is whoever was attached, and whom it takes. -/
theorem PolicySpec.attachedIn_attach (hpolicy : PolicySpec policy refs) (v w : VcpuId)
    (p : PcpuId) (s : Scheduler ED SD) :
    AttachedIn refs (schedVcpuAttach policy v p s).1 w ↔
      AttachedIn refs s w ∨ w = v ∧ Attachable s v := by
  rcases hpolicy.attach_cases v p s with ⟨hsame, hstate⟩ | ⟨i, hi, hattach, -⟩
  · have hnot : ¬ Attachable s v := fun ⟨i, hi, hdetached⟩ => hstate i hi hdetached
    rw [hsame, or_iff_left fun h => hnot h.2]
  · by_cases hw : w = v
    · rw [hw]
      exact iff_of_true (attachedIn_attaches_self hpolicy hattach hi)
        (.inr ⟨rfl, i, hi, hattach.detached⟩)
    · rw [attachedIn_attaches_of_ne hpolicy hattach hi hw, or_iff_left fun h => hw h.1]

theorem PolicySpec.attachable_attach (hpolicy : PolicySpec policy refs) (hw : w ≠ v) (p : PcpuId)
    (s : Scheduler ED SD) :
    Attachable (schedVcpuAttach policy v p s).1 w ↔ Attachable s w := by
  rcases hpolicy.attach_cases v p s with ⟨hsame, -⟩ | ⟨i, hi, hattach, -⟩
  · rw [hsame]
  · exact attachable_attaches_of_ne hattach hi hw

end

/-! ## The requests -/

variable {gPolicy : PcpuId → PolicyName}

/-- What a guest asks for: `PSCI_CPU_ON` with the registers of the call, or a write to
`SYS_FLAGSSET`. -/
inductive StartRequest
  | cpuOn (regs : CoreRegs)
  | flagsset (pc : U32)

namespace StartRequest

/-- What processor `cpu` does, with the value that the guest gets if it gets one. -/
def serve (conf : HvConf) (cpu : PcpuId) (H : Hypervisor gPolicy) :
    StartRequest → Option (Hypervisor gPolicy × Option ℤ)
  | .cpuOn regs => (emulatePsciCpuOn conf cpu regs H).map fun r => (r.1, some r.2)
  | .flagsset pc => (sysFlagsset conf cpu pc H).map fun H => (H, none)

def entryPoint : StartRequest → U32
  | .cpuOn regs => regs.gpr 2
  | .flagsset pc => pc

def targets (vm : Vmcb) : StartRequest → List VcpuId
  | .cpuOn regs => vm.vcpu[(regs.gpr 1).toNat]?.toList
  | .flagsset _ => vm.vcpu.tail

def code (vm : Vmcb) : StartRequest → Option ℤ
  | .cpuOn regs =>
      some (if (regs.gpr 1).toNat < vm.vcpu.length then psciRetSuccess else psciRetInvalidParams)
  | .flagsset _ => none

end StartRequest

/-- A request of machine `m` leaves its targets as they are if they are attached, and tells the
guest so if it tells it anything; else it starts them. An index that there is not changes
nothing. -/
structure Undisturbed (conf : HvConf) (m : VmId) (req : StartRequest) (H H' : Hypervisor gPolicy)
    (code : Option ℤ) : Prop where
  attached : ∀ v ∈ req.targets (H.vmcb m), H.Attached conf v →
    (H'.sys.vcpus v).map Vcpu.regs = (H.sys.vcpus v).map Vcpu.regs ∧
      (H'.life v).state = (H.life v).state ∧ code ≠ some psciRetSuccess
  started : ∀ v ∈ req.targets (H.vmcb m), ¬ H.Attached conf v →
    (H'.sys.vcpus v).map (fun vcpu => vcpu.regs.coreRegs.pc) = some req.entryPoint ∧
      (H'.life v).state = .activated ∧ H'.Attached conf v
  beyond : ∀ regs, req = .cpuOn regs → (H.vmcb m).vcpu.length ≤ (regs.gpr 1).toNat → H' = H

/-- The virtual processor is registered with its scheduler and can be attached. -/
def Hypervisor.Startable (conf : HvConf) (H : Hypervisor gPolicy) (v : VcpuId) : Prop :=
  Attachable (H.sys.sched (conf.vcpuToPcpu v)) v

/-- The virtual processor is attached and activated, and what has been saved of it is about to go
on at `pc`. -/
def Hypervisor.GoesOnAt (conf : HvConf) (H : Hypervisor gPolicy) (pc : U32) (v : VcpuId) : Prop :=
  H.Attached conf v ∧ (H.life v).state = .activated ∧
    (H.sys.vcpus v).map (fun vcpu => vcpu.regs.coreRegs.pc) = some pc

/-- All targets can be attached; or, where the guest gets no answer, what is written to them is
there already. -/
def StartRequest.Harmless (conf : HvConf) (m : VmId) (H : Hypervisor gPolicy) :
    StartRequest → Prop
  | .cpuOn regs => ∀ v ∈ targets (H.vmcb m) (.cpuOn regs), H.Startable conf v
  | .flagsset pc => ∀ v ∈ targets (H.vmcb m) (.flagsset pc),
      H.Startable conf v ∨ H.GoesOnAt conf pc v

/-! ## What a request does -/

variable {conf : HvConf} {H H' H'' : Hypervisor gPolicy}

/-- The assignment `core_regs.pc = pc`. -/
def Vcpu.enterAt (pc : U32) (vcpu : Vcpu) : Vcpu :=
  { vcpu with regs := { vcpu.regs with coreRegs := { vcpu.regs.coreRegs with pc := pc } } }

/-- From `H` to `H'` the virtual processors in `vs` have been told to start at `pc`. -/
structure Activates (conf : HvConf) (pc : U32) (vs : List VcpuId) (H H' : Hypervisor gPolicy) :
    Prop where
  vcpus : ∀ w, H'.sys.vcpus w =
    if w ∈ vs then (H.sys.vcpus w).map (Vcpu.enterAt pc) else H.sys.vcpus w
  state : ∀ w, (H'.life w).state = if w ∈ vs then .activated else (H.life w).state
  attached : ∀ w, H'.Attached conf w ↔ H.Attached conf w ∨ w ∈ vs ∧ H.Startable conf w
  startable : ∀ w ∉ vs, (H'.Startable conf w ↔ H.Startable conf w)

theorem Activates.refl (pc : U32) (H : Hypervisor gPolicy) : Activates conf pc [] H H where
  vcpus _ := (if_neg List.not_mem_nil).symm
  state _ := (if_neg List.not_mem_nil).symm
  attached _ := (or_iff_left fun h => List.not_mem_nil h.1).symm
  startable _ _ := Iff.rfl

theorem Activates.trans {pc : U32} {vs ws : List VcpuId} (h : Activates conf pc vs H H')
    (h' : Activates conf pc ws H' H'') (hdisjoint : ∀ w ∈ ws, w ∉ vs) :
    Activates conf pc (vs ++ ws) H H'' := by
  refine ⟨fun w => ?_, fun w => ?_, fun w => ?_, fun w hw => ?_⟩
  · rw [h'.vcpus, h.vcpus]
    by_cases hw : w ∈ ws
    · rw [if_pos hw, if_neg (hdisjoint w hw), if_pos (List.mem_append_right vs hw)]
    · rw [if_neg hw]
      simp only [List.mem_append, hw, or_false]
  · rw [h'.state, h.state]
    by_cases hw : w ∈ ws
    · rw [if_pos hw, if_pos (List.mem_append_right vs hw)]
    · rw [if_neg hw]
      simp only [List.mem_append, hw, or_false]
  · rw [h'.attached, h.attached, or_assoc, List.mem_append, or_and_right]
    exact or_congr_right (or_congr_right (and_congr_right fun hw =>
      h.startable w (hdisjoint w hw)))
  · rw [List.mem_append, not_or] at hw
    exact (h'.startable w hw.2).trans (h.startable w hw.1)

theorem LifeInv.activates (hinv : LifeInv conf H) {pc : U32} {v : VcpuId}
    (h : activate conf pc H v = some H') : Activates conf pc [v] H H' := by
  obtain ⟨vcpu, hv, h⟩ := Option.bind_eq_some_iff.mp h
  have hplace : ∀ i, findEntry (H.sys.sched (conf.vcpuToPcpu v)) v = some i →
      vcpu.pcpuid = conf.vcpuToPcpu v := fun i hi => hinv.pcpuid v vcpu i hv hi
  obtain rfl : H' =
      ((H.setVcpu v (vcpu.enterAt pc)).attach conf v vcpu.pcpuid).setState v .activated :=
    (Option.some.inj h).symm
  have hspec := (gPolicy vcpu.pcpuid).spec conf.sched
  have hattached : ∀ q w, AttachedIn (gPolicy q).refs
      (((H.setVcpu v (vcpu.enterAt pc)).attach conf v vcpu.pcpuid).sys.sched q) w ↔
        AttachedIn (gPolicy q).refs (H.sys.sched q) w ∨
          q = vcpu.pcpuid ∧ w = v ∧ Attachable (H.sys.sched q) v :=
    forall_setSched _ (P := fun q t => ∀ w, AttachedIn (gPolicy q).refs t w ↔
        AttachedIn (gPolicy q).refs (H.sys.sched q) w ∨
          q = vcpu.pcpuid ∧ w = v ∧ Attachable (H.sys.sched q) v)
      (fun w => by rw [hspec.attachedIn_attach]; exact or_congr_right (and_iff_right rfl).symm)
      fun q hq w => (or_iff_left fun h => hq h.1).symm
  have hattachable : ∀ q w, w ≠ v → (Attachable
      (((H.setVcpu v (vcpu.enterAt pc)).attach conf v vcpu.pcpuid).sys.sched q) w ↔
        Attachable (H.sys.sched q) w) :=
    forall_setSched _ (P := fun q t => ∀ w, w ≠ v →
        (Attachable t w ↔ Attachable (H.sys.sched q) w))
      (fun w hw => hspec.attachable_attach hw _ _) fun q _ w _ => Iff.rfl
  refine ⟨fun w => ?_, fun w => ?_, fun w => ?_, fun w hw => ?_⟩
  · simp only [List.mem_singleton]
    refine (setVcpu_vcpus H v w _).trans ?_
    by_cases hw : w = v
    · rw [if_pos hw, if_pos hw, hw, hv]
      rfl
    · rw [if_neg hw, if_neg hw]
  · simp only [List.mem_singleton]
    exact setState_state ..
  · rw [List.mem_singleton]
    refine (hattached (conf.vcpuToPcpu w) w).trans (or_congr_right ⟨?_, ?_⟩)
    · rintro ⟨-, rfl, hstartable⟩
      exact ⟨rfl, hstartable⟩
    · rintro ⟨rfl, i, hi, hdetached⟩
      exact ⟨(hplace i hi).symm, rfl, i, hi, hdetached⟩
  · exact hattachable _ w (by simpa using hw)

theorem LifeInv.not_attached (hinv : LifeInv conf H) {v : VcpuId} (h : H.Startable conf v) :
    ¬ H.Attached conf v := by
  obtain ⟨i, hi, hdetached⟩ := h
  rintro ⟨j, hj, hinflight, -⟩
  obtain rfl := Option.some.inj (hi.symm.trans hj)
  exact (hinv.entries _).state i hinflight hdetached

theorem Activates.pc {pc : U32} {vs : List VcpuId} (h : Activates conf pc vs H H') {v : VcpuId}
    (hv : v ∈ vs) (hlive : (H.sys.vcpus v).isSome = true) :
    (H'.sys.vcpus v).map (fun vcpu => vcpu.regs.coreRegs.pc) = some pc := by
  obtain ⟨vcpu, hvcpu⟩ := Option.isSome_iff_exists.mp hlive
  rw [h.vcpus, if_pos hv, hvcpu]
  rfl

/-- The saved registers are not changed exactly if they have the entry point already. -/
theorem Activates.regs_iff {pc : U32} {vs : List VcpuId} (h : Activates conf pc vs H H')
    {v : VcpuId} (hv : v ∈ vs) (hlive : (H.sys.vcpus v).isSome = true) :
    (H'.sys.vcpus v).map Vcpu.regs = (H.sys.vcpus v).map Vcpu.regs ↔
      (H.sys.vcpus v).map (fun vcpu => vcpu.regs.coreRegs.pc) = some pc := by
  obtain ⟨vcpu, hvcpu⟩ := Option.isSome_iff_exists.mp hlive
  simp only [h.vcpus, if_pos hv, hvcpu, Option.map_some, Option.some.injEq]
  constructor
  · intro hregs
    exact (congrArg (fun regs => regs.coreRegs.pc) hregs).symm
  · rintro rfl
    rfl

theorem LifeInv.activates_run (hinv : LifeInv conf H) (pc : U32) {m : VmId} {vs : List VcpuId}
    (hnodup : vs.Nodup) (howns : ∀ v ∈ vs, H.Owns m v) :
    ∃ H', run (activate conf pc) H vs = some H' ∧ Activates conf pc vs H H' := by
  induction vs generalizing H with
  | nil => exact ⟨H, rfl, .refl pc H⟩
  | cons v vs ih =>
      obtain ⟨hv, hnodup⟩ := List.nodup_cons.mp hnodup
      have hown := howns v List.mem_cons_self
      obtain ⟨vcpu, hvcpu⟩ := Option.isSome_iff_exists.mp (hinv.live_of_owns hown)
      obtain ⟨J, hJ⟩ : ∃ J, activate conf pc H v = some J := ⟨_, by rw [activate, hvcpu]; rfl⟩
      obtain ⟨hmoves, hsame⟩ := moves_activate hown hJ
      obtain ⟨H', hrun, hactivates⟩ := ih (hinv.moves hmoves) hnodup fun w hw =>
        hsame.owns.mpr (howns w (List.mem_cons_of_mem v hw))
      refine ⟨H', by rw [run_cons, hJ, Option.bind_some, hrun], ?_⟩
      refine (hinv.activates hJ).trans hactivates fun w hw hwv => hv ?_
      rwa [← List.mem_singleton.mp hwv]

theorem emulatePsciCpuOn_eq {cpu : PcpuId} {m : VmId} (hm : H.currentVm cpu = some m)
    (regs : CoreRegs) : emulatePsciCpuOn conf cpu regs H =
      (run (activate conf (regs.gpr 2)) H (H.vmcb m).vcpu[(regs.gpr 1).toNat]?.toList).map
        fun H' => (H', if (regs.gpr 1).toNat < (H.vmcb m).vcpu.length then psciRetSuccess
          else psciRetInvalidParams) := by
  rw [emulatePsciCpuOn, hm, Option.bind_eq_bind, Option.bind_some]
  cases hv : (H.vmcb m).vcpu[(regs.gpr 1).toNat]? with
  | none =>
      rw [if_neg (Nat.not_lt_of_le (List.getElem?_eq_none_iff.mp hv))]
      rfl
  | some v =>
      have hone : run (activate conf (regs.gpr 2)) H [v] = activate conf (regs.gpr 2) H v :=
        (run_cons ..).trans (Option.bind_fun_some _)
      rw [if_pos (List.getElem?_eq_some_iff.mp hv).1, Option.toList_some, hone]

theorem StartRequest.mem_of_mem_targets (req : StartRequest) {vm : Vmcb} {v : VcpuId}
    (hv : v ∈ req.targets vm) : v ∈ vm.vcpu := by
  cases req with
  | cpuOn regs => exact List.mem_of_getElem? (Option.mem_toList.mp hv)
  | flagsset pc => exact List.mem_of_mem_tail hv

theorem StartRequest.nodup_targets (req : StartRequest) {vm : Vmcb} (h : vm.vcpu.Nodup) :
    (req.targets vm).Nodup := by
  cases req with
  | cpuOn regs => exact Option.pairwise_toList
  | flagsset pc => exact h.sublist (List.tail_sublist _)

/-- A request that the current machine makes activates its targets. -/
theorem LifeInv.serve (hinv : LifeInv conf H) {cpu : PcpuId} {m : VmId}
    (hm : H.currentVm cpu = some m) (req : StartRequest) :
    ∃ H', req.serve conf cpu H = some (H', req.code (H.vmcb m)) ∧
      run (activate conf req.entryPoint) H (req.targets (H.vmcb m)) = some H' ∧
      Activates conf req.entryPoint (req.targets (H.vmcb m)) H H' := by
  have hlive := (isSome_of_currentVm hm).1
  obtain ⟨H', hrun, hactivates⟩ := hinv.activates_run req.entryPoint
    (req.nodup_targets (hinv.nodup m hlive)) fun v hv => ⟨hlive, req.mem_of_mem_targets hv⟩
  refine ⟨H', ?_, hrun, hactivates⟩
  cases req with
  | cpuOn regs =>
      rw [StartRequest.entryPoint, StartRequest.targets] at hrun
      rw [StartRequest.serve, emulatePsciCpuOn_eq hm, hrun]
      rfl
  | flagsset pc =>
      rw [StartRequest.serve, sysFlagsset, hm]
      exact congrArg _ hrun

/-! ## Every request -/

theorem StartRequest.harmless_iff (req : StartRequest) (m : VmId) :
    req.Harmless conf m H ↔ ∀ v ∈ req.targets (H.vmcb m), H.Startable conf v ∨
      H.GoesOnAt conf req.entryPoint v ∧ req.code (H.vmcb m) ≠ some psciRetSuccess := by
  cases req with
  | cpuOn regs =>
      refine forall₂_congr fun v hv => (or_iff_left fun h => h.2 ?_).symm
      exact congrArg some (if_pos (List.getElem?_eq_some_iff.mp (Option.mem_toList.mp hv)).1)
  | flagsset pc =>
      exact forall₂_congr fun v _ => or_congr_right (and_iff_left (Option.some_ne_none _).symm).symm

/-- In every reachable state and whatever the current machine asks for: the request is served, and
it disturbs no virtual processor that is attached and starts every other one exactly if all its
targets can be attached, or are attached and go on at the entry point of a write to `SYS_FLAGSSET`
anyway. -/
theorem undisturbed_iff {blank : Blank gPolicy} {es : List HvEvent}
    (hrun : run (hvStep conf) (init conf blank) es = some H) {cpu : PcpuId} {m : VmId}
    (hm : H.currentVm cpu = some m) (req : StartRequest) :
    ∃ H' code, req.serve conf cpu H = some (H', code) ∧
      (Undisturbed conf m req H H' code ↔ req.Harmless conf m H) := by
  have hinv := LifeInv.reachable hrun
  obtain ⟨H', hserve, hall, hactivates⟩ := hinv.serve hm req
  have hlive : ∀ v ∈ req.targets (H.vmcb m), (H.sys.vcpus v).isSome = true := fun v hv =>
    hinv.live_of_owns ⟨(isSome_of_currentVm hm).1, req.mem_of_mem_targets hv⟩
  refine ⟨H', _, hserve, ?_⟩
  rw [req.harmless_iff]
  constructor
  · intro h v hv
    by_cases hattached : H.Attached conf v
    · obtain ⟨hregs, hstate, hcode⟩ := h.attached v hv hattached
      rw [hactivates.state, if_pos hv] at hstate
      exact .inr ⟨⟨hattached, hstate.symm, (hactivates.regs_iff hv (hlive v hv)).mp hregs⟩, hcode⟩
    · obtain ⟨-, -, hstarted⟩ := h.started v hv hattached
      exact .inl (((hactivates.attached v).mp hstarted).resolve_left hattached).2
  · intro h
    refine ⟨fun v hv hattached => ?_, fun v hv hattached => ?_, fun regs hregs hbeyond => ?_⟩
    · obtain ⟨⟨-, hstate, hpc⟩, hcode⟩ :=
        (h v hv).resolve_left fun hstartable => hinv.not_attached hstartable hattached
      refine ⟨(hactivates.regs_iff hv (hlive v hv)).mpr hpc, ?_, hcode⟩
      rw [hactivates.state, if_pos hv, hstate]
    · have hstartable := (h v hv).resolve_right fun hgoes => hattached hgoes.1.1
      have hstarted : H'.Attached conf v := (hactivates.attached v).mpr (.inr ⟨hv, hstartable⟩)
      refine ⟨hactivates.pc hv (hlive v hv), ?_, hstarted⟩
      rw [hactivates.state, if_pos hv]
    · subst hregs
      have hnone : (StartRequest.cpuOn regs).targets (H.vmcb m) = [] :=
        congrArg Option.toList (List.getElem?_eq_none_iff.mpr hbeyond)
      rw [hnone, run_nil] at hall
      exact (Option.some.inj hall).symm

/-- The registers of a call of `PSCI_CPU_ON`. -/
def cpuOnRegs (index pc : U32) : CoreRegs :=
  { (default : CoreRegs) with gpr := fun i => if i.val = 1 then index else pc }

def bootPair : List HvEvent :=
  [.vmCreate 2 .normal allAlloc, .vmInit 0 (fun _ => 0) 0, .vmStart 0, .schedStart 0 0 0]

theorem undisturbed_iff_bootPair : ∃ H,
    run (hvStep sampleConf) (init sampleConf sampleBlank) bootPair = some H ∧
      H.currentVm 0 = some 0 ∧
      ∃ H' code, (StartRequest.cpuOn (cpuOnRegs 1 4)).serve sampleConf 0 H = some (H', code) ∧
        (Undisturbed sampleConf 0 (.cpuOn (cpuOnRegs 1 4)) H H' code ↔
          (StartRequest.cpuOn (cpuOnRegs 1 4)).Harmless sampleConf 0 H) := by
  obtain ⟨H, hrun, hm⟩ : ∃ H, run (hvStep sampleConf) (init sampleConf sampleBlank) bootPair =
      some H ∧ H.currentVm 0 = some 0 := ⟨_, rfl, rfl⟩
  exact ⟨H, hrun, hm, undisturbed_iff hrun hm _⟩

/-- The second virtual processor is started twice, and the second time at another place. -/
theorem started_twice :
    ¬ ∀ (conf : HvConf) (blank : Blank fun _ => PolicyName.rr) (es : List HvEvent)
      (H H' : Hypervisor fun _ => PolicyName.rr) (cpu : PcpuId) (m : VmId) (req : StartRequest)
      (code : Option ℤ), run (hvStep conf) (init conf blank) es = some H →
        H.currentVm cpu = some m → req.serve conf cpu H = some (H', code) →
          Undisturbed conf m req H H' code := by
  intro h
  obtain ⟨H, H', hrun, hm, hserve, harray, hfind, hinflight, hrefs⟩ : ∃ H H',
      run (hvStep sampleConf) (init sampleConf sampleBlank)
        (bootPair ++ [.cpuOn 0 (cpuOnRegs 1 4)]) = some H ∧ H.currentVm 0 = some 0 ∧
      (StartRequest.cpuOn (cpuOnRegs 1 8)).serve sampleConf 0 H =
        some (H', some psciRetSuccess) ∧
      (H.vmcb 0).vcpu = [0, 1] ∧ findEntry (H.sys.sched 0) 1 = some 1 ∧
      (H.sys.sched 0).inflightEntries = [0, 1] ∧ SchedDataRr.refs (H.sys.sched 0).sd = [0, 1] :=
    ⟨_, _, rfl, rfl, rfl, rfl, rfl, rfl, rfl⟩
  have hattached : H.Attached sampleConf 1 := by
    have hsecond : 1 ∈ [0, 1] := List.mem_cons_of_mem 0 List.mem_cons_self
    exact ⟨1, hfind, hinflight.symm ▸ hsecond, (congrArg (1 ∈ ·) hrefs).mpr hsecond⟩
  have htarget : 1 ∈ (StartRequest.cpuOn (cpuOnRegs 1 8)).targets (H.vmcb 0) := by
    rw [StartRequest.targets, harray]
    exact List.mem_cons_self
  exact (h sampleConf sampleBlank _ H H' 0 0 _ _ hrun hm hserve).attached 1 htarget hattached
    |>.2.2 rfl

end KHypervisor
