import KHypervisor.Arch.OpteeShm
import KHypervisor.Arch.OpteeWaitQueue
import KHypervisor.Hypervisor

/-!
# Calls of the secure monitor

`handle_arm_smccc` looks at the service field of a function id first, and at the whole id only in
the services that it has no case for. The functions of PSCI 1.0 and 1.1 are in a service that it has
one for, and nothing is done there: the emulation of `PSCI_FN_CPU_ON` is reached only with a base of
version 0.1 elsewhere, and the caller of any function of the first services gets its id back.
-/

namespace KHypervisor

open Run

/-! ## Function ids -/

/-- `SMCCC_SERVICE`. -/
def smcccService (functionId : U32) : U32 := functionId >>> 24 &&& 0x3F

/-- The members `SMCCC_SERVICE_ARCH` to `SMCCC_SERVICE_HYPERVISOR` of `smccc_service_range`. -/
def smcccServicesDropped : List U32 := [0, 1, 2, 3, 4, 5]

/-- `SMCCC_SERVICE_TRUSTED_APP`. -/
def smcccServiceTrustedApp : U32 := 48

/-- `SMCCC_SERVICE_TRUSTED_APP_END`. -/
def smcccServiceTrustedAppEnd : U32 := 49

/-- `SMCCC_SERVICE_TRUSTED_OS`. -/
def smcccServiceTrustedOs : U32 := 50

/-- `SMCCC_SERVICE_TRUSTED_OS_END`. -/
def smcccServiceTrustedOsEnd : U32 := 63

/-- `smccc_service_range` has a case for the service, one of those for the trusted world. -/
def TrustedService (service : U32) : Prop :=
  smcccServiceTrustedApp ≤ service ∧ service ≤ smcccServiceTrustedAppEnd ∨
    smcccServiceTrustedOs ≤ service ∧ service ≤ smcccServiceTrustedOsEnd

instance (service : U32) : Decidable (TrustedService service) :=
  inferInstanceAs (Decidable (_ ∨ _))

/-- The versions of `Kconfig`, the first one with `CONFIG_ARM_PSCI_FN_BASE`. -/
inductive PsciVersion
  | v0_1 (fnBase : U32)
  | v1_0
  | v1_1

/-- `PSCI_FN_CPU_ON`. The older enumeration begins with `PSCI_FN_CPU_SUSPEND`, the newer ones with
`PSCI_FN_PSCI_VERSION`. -/
def PsciVersion.fnCpuOn : PsciVersion → U32
  | v0_1 fnBase => fnBase + 2
  | v1_0 => 0x84000000 + 3
  | v1_1 => 0x84000000 + 3

/-! ## The handler -/

/-- `CONFIG_ARM_PSCI` with the version, `CONFIG_OPTEE`, and what the handlers use. -/
structure SmcConf where
  psci : Option PsciVersion
  withOptee : Bool
  hv : HvConf
  optee : OpteeConf

variable {gPolicy : PcpuId → PolicyName} {k : ℕ}

/-- The hypervisor, the static variables of `optee.c`, and the trap frame. -/
structure SmcState (gPolicy : PcpuId → PolicyName) (k : ℕ) where
  hyp : Hypervisor gPolicy
  threads : Fin k → OpteeThread
  shm : OpteeShm
  regs : CoreRegs

inductive SmcFate
  | dropped
  | mediated
  | emulated
  | forwarded
deriving DecidableEq

namespace SmcState

/-- What `optee.c` sees. -/
def optee (s : SmcState gPolicy k) : OpteeState k := ⟨s.threads, s.shm, s.hyp.mem⟩

/-- The state after `optee.c` has changed what it sees. -/
def putOptee (r : CoreRegs × OpteeState k) (s : SmcState gPolicy k) : SmcState gPolicy k where
  hyp := { s.hyp with mem := r.2.mem }
  threads := r.2.threads
  shm := r.2.shm
  regs := r.1

/-- `regs->gpr[0] = emulate_psci_cpu_on(regs)`. -/
def emulate (conf : SmcConf) (cpu : PcpuId) (s : SmcState gPolicy k) :
    Option (SmcState gPolicy k) :=
  (emulatePsciCpuOn conf.hv cpu s.regs s.hyp).map fun r =>
    { s with hyp := r.1, regs := s.regs.putGpr 0 (BitVec.ofInt 32 r.2) }

/-- `arm_smccc_smc` with the first eight registers, whose answer is stored over them. -/
def forward (smc : SecureWorld) (s : SmcState gPolicy k) : SmcState gPolicy k :=
  let args := ![s.regs.gpr 0, s.regs.gpr 1, s.regs.gpr 2, s.regs.gpr 3, s.regs.gpr 4, s.regs.gpr 5,
    s.regs.gpr 6, s.regs.gpr 7]
  let r := armSmcccSmc smc args s.regs s.hyp.mem
  { s with hyp := { s.hyp with mem := r.2 }, regs := r.1 }

/-- `handle_optee_smc`, for the machine that runs on processor `cpu`. -/
def mediate (conf : SmcConf) (smc : SecureWorld) (cpu : PcpuId) (s : SmcState gPolicy k) :
    Option (SmcState gPolicy k) := do
  let vmid ← s.hyp.currentVm cpu
  let r ← handleOpteeSmc conf.optee smc vmid s.regs s.optee
  some (s.putOptee r)

/-- `handle_misc_arm_smccc`. There is no result where the emulation has none. -/
def handleMiscArmSmccc (conf : SmcConf) (smc : SecureWorld) (cpu : PcpuId)
    (s : SmcState gPolicy k) : SmcFate × Option (SmcState gPolicy k) :=
  if conf.psci.map PsciVersion.fnCpuOn = some (s.regs.gpr 0) then (.emulated, s.emulate conf cpu)
  else (.forwarded, some (s.forward smc))

/-- `handle_arm_smccc`. -/
def handleArmSmccc (conf : SmcConf) (smc : SecureWorld) (cpu : PcpuId) (s : SmcState gPolicy k) :
    SmcFate × Option (SmcState gPolicy k) :=
  let service := smcccService (s.regs.gpr 0)
  if smcccServicesDropped.contains service then (.dropped, some s)
  else if TrustedService service then
    if conf.withOptee then (.mediated, s.mediate conf smc cpu) else (.dropped, some s)
  else s.handleMiscArmSmccc conf smc cpu

end SmcState

/-! ## What is to become of a call -/

/-- The handler has a case of its own for the service. -/
def Reserved (service : U32) : Prop := service ∈ smcccServicesDropped ∨ TrustedService service

instance (service : U32) : Decidable (Reserved service) :=
  inferInstanceAs (Decidable (_ ∨ _))

/-- The base of version 0.1 is not in a reserved service. -/
def PsciVersion.Sound : PsciVersion → Prop
  | v0_1 fnBase => ¬ Reserved (smcccService fnBase)
  | v1_0 => True
  | v1_1 => True

instance : DecidablePred PsciVersion.Sound
  | .v0_1 fnBase => inferInstanceAs (Decidable (¬ Reserved (smcccService fnBase)))
  | .v1_0 => inferInstanceAs (Decidable True)
  | .v1_1 => inferInstanceAs (Decidable True)

/-- The id is the one that starts a processor, and the configuration is to emulate it. -/
def SmcConf.StartsCpu (conf : SmcConf) (functionId : U32) : Prop :=
  ∃ version, conf.psci = some version ∧ version.Sound ∧ functionId = version.fnCpuOn

/-- The mediator of OP-TEE has no answer of its own, and forwards the call. -/
def SmcState.Passes (conf : SmcConf) (smc : SecureWorld) (cpu : PcpuId) (s : SmcState gPolicy k) :
    Prop :=
  ∃ vmid r, s.hyp.currentVm cpu = some vmid ∧
    opteeSmcEntry conf.optee smc vmid s.regs s.optee = some (false, r)

/-- A call that starts a processor is emulated, and its result put into `gpr[0]`; and no call
returns with its id in `gpr[0]` without having been emulated or forwarded. -/
structure SmcLaw (conf : SmcConf) (smc : SecureWorld) (cpu : PcpuId) (s : SmcState gPolicy k) :
    Prop where
  emulated : conf.StartsCpu (s.regs.gpr 0) →
    s.handleArmSmccc conf smc cpu = (.emulated, s.emulate conf cpu)
  kept : ∀ fate t, s.handleArmSmccc conf smc cpu = (fate, some t) →
    t.regs.gpr 0 = s.regs.gpr 0 →
      fate = .emulated ∨ fate = .forwarded ∨ fate = .mediated ∧ s.Passes conf smc cpu

/-- The handler has no case for the service, or hands it to the mediator of OP-TEE, and that not
instead of the emulation. -/
def SmcConf.Serves (conf : SmcConf) (functionId : U32) : Prop :=
  smcccService functionId ∉ smcccServicesDropped ∧
    (TrustedService (smcccService functionId) →
      conf.withOptee = true ∧ ¬ conf.StartsCpu functionId)

section

variable {conf : SmcConf} {smc : SecureWorld} {cpu : PcpuId} {s : SmcState gPolicy k}

theorem handleArmSmccc_of_dropped (h : smcccService (s.regs.gpr 0) ∈ smcccServicesDropped) :
    s.handleArmSmccc conf smc cpu = (.dropped, some s) :=
  if_pos (List.contains_iff_mem.mpr h)

theorem handleArmSmccc_of_trusted (h : smcccService (s.regs.gpr 0) ∉ smcccServicesDropped)
    (htrusted : TrustedService (smcccService (s.regs.gpr 0))) :
    s.handleArmSmccc conf smc cpu =
      if conf.withOptee then (.mediated, s.mediate conf smc cpu) else (.dropped, some s) :=
  (if_neg (mt List.contains_iff_mem.mp h)).trans (if_pos htrusted)

theorem handleArmSmccc_of_misc (h : smcccService (s.regs.gpr 0) ∉ smcccServicesDropped)
    (htrusted : ¬ TrustedService (smcccService (s.regs.gpr 0))) :
    s.handleArmSmccc conf smc cpu = s.handleMiscArmSmccc conf smc cpu :=
  (if_neg (mt List.contains_iff_mem.mp h)).trans (if_neg htrusted)

theorem not_smcLaw_of_dropped (h : s.handleArmSmccc conf smc cpu = (.dropped, some s)) :
    ¬ SmcLaw conf smc cpu s :=
  fun hlaw => by simpa using hlaw.kept .dropped s h rfl

theorem smcLaw_of_misc (h : smcccService (s.regs.gpr 0) ∉ smcccServicesDropped)
    (htrusted : ¬ TrustedService (smcccService (s.regs.gpr 0))) : SmcLaw conf smc cpu s := by
  have hmisc : s.handleArmSmccc conf smc cpu = s.handleMiscArmSmccc conf smc cpu :=
    handleArmSmccc_of_misc h htrusted
  constructor
  · rintro ⟨version, hversion, -, hid⟩
    rw [hmisc, SmcState.handleMiscArmSmccc, hversion, Option.map_some, hid, if_pos rfl]
  · intro fate t ht _
    rw [hmisc, SmcState.handleMiscArmSmccc] at ht
    split at ht
    · exact .inl (Prod.ext_iff.mp ht).1.symm
    · exact .inr (.inl (Prod.ext_iff.mp ht).1.symm)

/-- What the mediator answers itself is not the id of the call. -/
theorem gpr_zero_ne_of_answered {optee : OpteeConf} {vmid : VmId} {regs : CoreRegs}
    {u : OpteeState k} {r : CoreRegs × OpteeState k}
    (h : opteeSmcEntry optee smc vmid regs u = some (true, r)) : r.1.gpr 0 ≠ regs.gpr 0 := by
  rw [opteeSmcEntry] at h
  by_cases hshm : regs.gpr 0 = opteeSmcGetShmConfig
  · rw [if_pos hshm] at h
    obtain ⟨r', hr, hr'⟩ := Option.map_eq_some_iff.mp h
    obtain rfl := (Prod.mk.inj hr').2
    rw [handleOpteeGetShmConfig_status hr, hshm]
    decide
  rw [if_neg hshm] at h
  by_cases hrpc : regs.gpr 0 = opteeSmcReturnFromRpc
  · rw [if_pos hrpc] at h
    obtain ⟨i, -, ⟨-, -, hsleeps⟩ | ⟨-, hfalse, -⟩⟩ := handleOpteeReturnFromRpc_spec h
    · rw [(Prod.mk.inj hsleeps).2, hrpc]
      show opteeRpcFuncDummy ≠ opteeSmcReturnFromRpc
      decide
    · cases hfalse
  · rw [if_neg hrpc] at h
    cases h

theorem passes_of_mediate {t : SmcState gPolicy k} (h : s.mediate conf smc cpu = some t)
    (hsame : t.regs.gpr 0 = s.regs.gpr 0) : s.Passes conf smc cpu := by
  obtain ⟨vmid, hvmid, h⟩ := Option.bind_eq_some_iff.mp h
  obtain ⟨r, hr, h⟩ := Option.bind_eq_some_iff.mp h
  obtain rfl := Option.some.inj h
  obtain ⟨⟨answered, r'⟩, hentry, hr⟩ := Option.bind_eq_some_iff.mp hr
  cases answered with
  | false => exact ⟨vmid, r', hvmid, hentry⟩
  | true =>
      obtain rfl := Option.some.inj hr
      exact absurd hsame (gpr_zero_ne_of_answered hentry)

theorem smcLaw_of_mediated (h : smcccService (s.regs.gpr 0) ∉ smcccServicesDropped)
    (htrusted : TrustedService (smcccService (s.regs.gpr 0))) (hoptee : conf.withOptee = true) :
    SmcLaw conf smc cpu s ↔ ¬ conf.StartsCpu (s.regs.gpr 0) := by
  have hmediated : s.handleArmSmccc conf smc cpu = (.mediated, s.mediate conf smc cpu) :=
    (handleArmSmccc_of_trusted h htrusted).trans (if_pos hoptee)
  constructor
  · intro hlaw hstarts
    have hemulated := hmediated.symm.trans (hlaw.emulated hstarts)
    cases (Prod.ext_iff.mp hemulated).1
  · intro hstarts
    constructor
    · intro hstarts'
      exact absurd hstarts' hstarts
    · intro fate t ht hsame
      rw [hmediated] at ht
      obtain ⟨rfl, hmediate⟩ := Prod.ext_iff.mp ht
      exact .inr (.inr ⟨rfl, passes_of_mediate hmediate hsame⟩)

/-- The law holds of a call if and only if the handler serves its id. -/
theorem smc_law_iff (conf : SmcConf) (smc : SecureWorld) (cpu : PcpuId)
    (s : SmcState gPolicy k) : SmcLaw conf smc cpu s ↔ conf.Serves (s.regs.gpr 0) := by
  by_cases hdropped : smcccService (s.regs.gpr 0) ∈ smcccServicesDropped
  · refine iff_of_false (not_smcLaw_of_dropped (handleArmSmccc_of_dropped hdropped)) ?_
    exact fun hserves => hserves.1 hdropped
  by_cases htrusted : TrustedService (smcccService (s.regs.gpr 0))
  · by_cases hoptee : conf.withOptee = true
    · rw [smcLaw_of_mediated hdropped htrusted hoptee]
      constructor
      · exact fun hstarts => ⟨hdropped, fun _ => ⟨hoptee, hstarts⟩⟩
      · exact fun hserves => (hserves.2 htrusted).2
    · refine iff_of_false (not_smcLaw_of_dropped ?_) fun hserves => hoptee (hserves.2 htrusted).1
      exact (handleArmSmccc_of_trusted hdropped htrusted).trans (if_neg hoptee)
  · refine iff_of_true (smcLaw_of_misc hdropped htrusted) ⟨hdropped, ?_⟩
    intro htrusted'
    exact absurd htrusted' htrusted

/-- A machine that starts a processor by PSCI 1.0 gets the id of the function back. -/
theorem cpu_on_dropped :
    ¬ ∀ (conf : SmcConf) (smc : SecureWorld) (s : SmcState (fun _ => PolicyName.rr) 0),
      SmcLaw conf smc 0 s := by
  intro h
  have hlaw := h ⟨some .v1_0, false, sampleConf, ⟨1, 0, fun _ => 0⟩⟩ (fun _ m => (⟨0, 0, 0, 0⟩, m))
    ⟨Hypervisor.init sampleConf sampleBlank, fun _ => ⟨0, false, 0⟩, ⟨0, 0, 0⟩,
      { (default : CoreRegs) with gpr := fun _ => 0x84000003 }⟩
  exact not_smcLaw_of_dropped (handleArmSmccc_of_dropped (by decide)) hlaw

end

end KHypervisor
