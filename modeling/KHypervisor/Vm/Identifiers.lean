import KHypervisor.Vm.Moves

/-!
# The numbers of machines and virtual processors

Two counters number the machines and the virtual processors. They go up with every creation, also
with one that fails, and never down, and nobody compares them with the tables that the numbers
index. A ledger of what has been given out tells for every sequence of calls whether the numbers
fit (`ids_in_tables_iff`).
-/

namespace KHypervisor

open Run Hypervisor

variable {gPolicy : PcpuId → PolicyName}

/-- `TOTAL_VCPUS`. -/
def totalVcpus : ℕ := 8

/-- The lengths of the other tables: `CONFIG_NR_VMS`, which is that of `vm_mmap` and of the area of
the page tables, the length of `vm_conf`, and `NR_CPUS`. -/
structure IdTables where
  nrVms : ℕ
  vmConf : ℕ
  nrCpus : ℕ

inductive IdCall
  | vmCreate (numVcpus : U8) (type : VmcbType) (alloc : VmAlloc)
  | vmInit (cpu : PcpuId) (syscounter : VcpuId → U64) (vmid : VmId)
  | vmDelete (vmid : VmId)

def IdCall.event : IdCall → HvEvent
  | .vmCreate numVcpus type alloc => .vmCreate numVcpus type alloc
  | .vmInit cpu syscounter vmid => .vmInit cpu syscounter vmid
  | .vmDelete vmid => .vmDelete vmid

def idStep (conf : HvConf) (H : Hypervisor gPolicy) (call : IdCall) :
    Option (Hypervisor gPolicy) :=
  hvStep conf H call.event

/-- The processors that `schedconf_g_vcpu_to_pcpu_map` has for the virtual processors of a
machine. -/
def PcpusInTable (conf : HvConf) (tables : IdTables) (vmid : VmId) (H : Hypervisor gPolicy) :
    Prop :=
  (H.sys.vms vmid).isSome = true → ∀ v ∈ (H.vmcb vmid).vcpu, conf.vcpuToPcpu v < tables.nrCpus

/-- The numbers that a call gives out are indices of the tables, and so are those that it looks
up. -/
def IdsInTables (conf : HvConf) (tables : IdTables) (H : Hypervisor gPolicy) :
    IdCall → Hypervisor gPolicy → Prop
  | .vmCreate numVcpus type alloc, H' =>
      ∀ vmid, (vmCreate conf numVcpus type alloc H).2 = some vmid →
        vmid < tables.nrVms ∧ vmid < tables.vmConf ∧
          ∀ v ∈ (H'.vmcb vmid).vcpu, v < totalVcpus ∧ v ≠ vcpuidInvalid
  | .vmInit _ _ vmid, _ => PcpusInTable conf tables vmid H
  | .vmDelete vmid, _ => PcpusInTable conf tables vmid H

/-! ## The ledger -/

/-- How many virtual processors the loop of `vm_create` creates before a call of `malloc` fails. -/
def VmAlloc.created (alloc : VmAlloc) (n : ℕ) : ℕ := ((List.range n).takeWhile alloc.vcpu).length

/-- All calls of `malloc` by `vm_create` succeed. -/
def VmAlloc.succeeds (alloc : VmAlloc) (n : ℕ) : Bool :=
  alloc.vm && alloc.array && (List.range n).all alloc.vcpu

/-- How many machines and virtual processors have been numbered, and for each machine that is there
the number of its first virtual processor and how many it has. -/
structure IdLedger where
  vms : ℕ
  vcpus : ℕ
  machines : VmId → Option (ℕ × ℕ)

def IdLedger.empty : IdLedger := ⟨0, 0, fun _ => none⟩

def IdLedger.after (L : IdLedger) : IdCall → IdLedger
  | .vmCreate numVcpus _ alloc =>
      if alloc.vm then
        { vms := L.vms + 1
          vcpus := L.vcpus + if alloc.array then alloc.created numVcpus.toNat else 0
          machines := if alloc.succeeds numVcpus.toNat then
              Function.update L.machines L.vms (some (L.vcpus, numVcpus.toNat))
            else L.machines }
      else L
  | .vmInit _ _ _ => L
  | .vmDelete vmid => { L with machines := Function.update L.machines vmid none }

def ledgerStep (L : IdLedger) (call : IdCall) : Option IdLedger := some (L.after call)

/-- A virtual processor of the machine is mapped to a processor that there is not. -/
def PcpuExceeds (conf : HvConf) (tables : IdTables) (vmid : VmId) (L : IdLedger) : Prop :=
  ∃ first n, L.machines vmid = some (first, n) ∧
    ∃ v, first ≤ v ∧ v < first + n ∧ tables.nrCpus ≤ conf.vcpuToPcpu v

/-- A machine is created beyond the tables, or with more virtual processors than are left; or the
virtual processors of one are looked up that are mapped beyond the processors. -/
def Exceeds (conf : HvConf) (tables : IdTables) (L : IdLedger) : IdCall → Prop
  | .vmCreate numVcpus _ alloc => alloc.succeeds numVcpus.toNat = true ∧
      (tables.nrVms ≤ L.vms ∨ tables.vmConf ≤ L.vms ∨
        numVcpus.toNat ≠ 0 ∧ totalVcpus < L.vcpus + numVcpus.toNat)
  | .vmInit _ _ vmid => PcpuExceeds conf tables vmid L
  | .vmDelete vmid => PcpuExceeds conf tables vmid L

/-! ## The ledger is right -/

/-- The ledger says what the hypervisor has numbered. -/
structure Records (H : Hypervisor gPolicy) (L : IdLedger) : Prop where
  vms : H.vmCount = L.vms
  vcpus : H.nrVcpus = L.vcpus
  gone : ∀ m, L.machines m = none → H.sys.vms m = none
  there : ∀ m first n, L.machines m = some (first, n) →
    (H.sys.vms m).isSome = true ∧ (H.vmcb m).vcpu = List.range' first n

theorem records_init (conf : HvConf) (blank : Blank gPolicy) :
    Records (Hypervisor.init conf blank) IdLedger.empty := by
  refine ⟨rfl, rfl, fun _ _ => rfl, fun m first n h => ?_⟩
  cases h

variable {conf : HvConf} {tables : IdTables} {H H' : Hypervisor gPolicy} {L : IdLedger}

/-- What the loop of `vm_create` numbers. -/
theorem createVcpus_numbers (type : VmcbType) (vmid : VmId) (alloc : ℕ → Bool) (is : List ℕ)
    (array : List VcpuId) (H : Hypervisor gPolicy) :
    (createVcpus type vmid alloc is array H).1.nrVcpus =
        H.nrVcpus + (is.takeWhile alloc).length ∧
      (createVcpus type vmid alloc is array H).2 =
        if is.all alloc then some (array ++ List.range' H.nrVcpus is.length) else none := by
  induction is generalizing array H with
  | nil => exact ⟨rfl, congrArg some (List.append_nil array).symm⟩
  | cons i is ih =>
      by_cases hi : alloc i = true
      · obtain ⟨hnr, harray⟩ := ih (array ++ [H.nrVcpus]) (H.createVcpu type vmid i)
        have hnext : (H.createVcpu type vmid i).nrVcpus = H.nrVcpus + 1 := rfl
        rw [createVcpus_cons type vmid alloc i is array H hi, hnr, harray, hnext,
          List.takeWhile_cons_of_pos hi, List.all_cons, hi, Bool.true_and, List.length_cons,
          List.length_cons, List.range'_succ, List.append_assoc]
        exact ⟨by omega, rfl⟩
      · rw [createVcpus, if_neg hi, List.takeWhile_cons_of_neg hi, List.all_cons,
          (Bool.not_eq_true _).mp hi, Bool.false_and]
        exact ⟨rfl, rfl⟩

/-- A machine has been created for the ledger's next number. -/
structure VmCreated (n : ℕ) (H H' : Hypervisor gPolicy) : Prop where
  vmCount : H'.vmCount = H.vmCount + 1
  nrVcpus : H'.nrVcpus = H.nrVcpus + n
  vms : ∃ vmem, H'.sys.vms = Function.update H.sys.vms H.vmCount (some vmem)
  vmcb : ∃ vm : Vmcb, H'.vmcb = Function.update H.vmcb H.vmCount vm ∧
    vm.vcpu = List.range' H.nrVcpus n

theorem created_of_succeeds {alloc : VmAlloc} {n : ℕ} (h : alloc.succeeds n = true) :
    alloc.vm = true ∧ alloc.array = true ∧ (List.range n).all alloc.vcpu = true := by
  rw [VmAlloc.succeeds, Bool.and_eq_true, Bool.and_eq_true] at h
  exact ⟨h.1.1, h.1.2, h.2⟩

theorem created_eq_of_all {alloc : VmAlloc} {n : ℕ} (h : (List.range n).all alloc.vcpu = true) :
    alloc.created n = n := by
  rw [VmAlloc.created, List.takeWhile_eq_self_iff.mpr (List.all_eq_true.mp h), List.length_range]

theorem not_all_of_fails {alloc : VmAlloc} {n : ℕ} (hvm : alloc.vm = true)
    (harray : alloc.array = true) (h : ¬ alloc.succeeds n = true) :
    ¬ (List.range n).all alloc.vcpu = true := by
  rw [VmAlloc.succeeds, hvm, harray, Bool.and_self, Bool.true_and] at h
  exact h

/-- `vm_create` with every `malloc` succeeding. -/
theorem vmCreate_of_succeeds (conf : HvConf) {numVcpus : U8} (type : VmcbType) {alloc : VmAlloc}
    (H : Hypervisor gPolicy) (h : alloc.succeeds numVcpus.toNat = true) :
    (vmCreate conf numVcpus type alloc H).2 = some H.vmCount ∧
      VmCreated numVcpus.toNat H (vmCreate conf numVcpus type alloc H).1 := by
  obtain ⟨hvm, harray, hall⟩ := created_of_succeeds h
  obtain ⟨hcreates, -⟩ := createVcpus_spec type H.vmCount alloc.vcpu
    (List.range numVcpus.toNat) [] { H with vmCount := H.vmCount + 1 }
  obtain ⟨hnr, hids⟩ := createVcpus_numbers type H.vmCount alloc.vcpu
    (List.range numVcpus.toNat) [] { H with vmCount := H.vmCount + 1 }
  have hcount : ((List.range numVcpus.toNat).takeWhile alloc.vcpu).length = numVcpus.toNat :=
    created_eq_of_all hall
  rw [hcount] at hnr
  rw [if_pos hall, List.nil_append, List.length_range] at hids
  rw [vmCreate, if_pos hvm]
  dsimp only
  rw [if_pos harray]
  rcases hr : createVcpus type H.vmCount alloc.vcpu (List.range numVcpus.toNat) []
    { H with vmCount := H.vmCount + 1 } with ⟨J, array⟩
  rw [hr] at hcreates hnr hids
  dsimp only at hids
  rw [hids]
  refine ⟨rfl, hcreates.vmCount, hnr, ⟨(vmemCreate conf.platform default H.vmCount J.mem).1, ?_⟩,
    ⟨_, congrArg (Function.update · H.vmCount _) hcreates.vmcb, rfl⟩⟩
  exact congrArg (Function.update · H.vmCount _) hcreates.vms

/-- `vm_create` with a `malloc` failing after the first. -/
theorem vmCreate_of_fails (conf : HvConf) {numVcpus : U8} (type : VmcbType) {alloc : VmAlloc}
    (H : Hypervisor gPolicy) (hvm : alloc.vm = true)
    (h : ¬ alloc.succeeds numVcpus.toNat = true) :
    (vmCreate conf numVcpus type alloc H).2 = none ∧
      (vmCreate conf numVcpus type alloc H).1.vmCount = H.vmCount + 1 ∧
      (vmCreate conf numVcpus type alloc H).1.nrVcpus =
        H.nrVcpus + (if alloc.array then alloc.created numVcpus.toNat else 0) ∧
      SameVms H (vmCreate conf numVcpus type alloc H).1 := by
  rw [vmCreate, if_pos hvm]
  dsimp only
  by_cases harray : alloc.array = true
  · have hall := not_all_of_fails hvm harray h
    obtain ⟨hcreates, -⟩ := createVcpus_spec type H.vmCount alloc.vcpu
      (List.range numVcpus.toNat) [] { H with vmCount := H.vmCount + 1 }
    obtain ⟨hnr, hids⟩ := createVcpus_numbers type H.vmCount alloc.vcpu
      (List.range numVcpus.toNat) [] { H with vmCount := H.vmCount + 1 }
    rw [if_neg hall] at hids
    rw [if_pos harray, if_pos harray]
    rcases hr : createVcpus type H.vmCount alloc.vcpu (List.range numVcpus.toNat) []
      { H with vmCount := H.vmCount + 1 } with ⟨J, array⟩
    rw [hr] at hcreates hnr hids
    dsimp only at hids
    rw [hids]
    exact ⟨rfl, hcreates.vmCount, hnr, hcreates.vms, hcreates.vmcb⟩
  · rw [if_neg harray, if_neg harray]
    exact ⟨rfl, rfl, rfl, rfl, rfl⟩

/-- Nothing has been numbered, and the machines have what they had. -/
structure SameNumbers (H H' : Hypervisor gPolicy) : Prop where
  vmCount : H'.vmCount = H.vmCount
  nrVcpus : H'.nrVcpus = H.nrVcpus
  vms : ∀ m, (H'.sys.vms m).isSome = (H.sys.vms m).isSome
  array : ∀ m, (H'.vmcb m).vcpu = (H.vmcb m).vcpu

theorem SameNumbers.refl (H : Hypervisor gPolicy) : SameNumbers H H :=
  ⟨rfl, rfl, fun _ => rfl, fun _ => rfl⟩

theorem SameNumbers.trans {H'' : Hypervisor gPolicy} (h : SameNumbers H H')
    (h' : SameNumbers H' H'') : SameNumbers H H'' :=
  ⟨h'.vmCount.trans h.vmCount, h'.nrVcpus.trans h.nrVcpus, fun m => (h'.vms m).trans (h.vms m),
    fun m => (h'.array m).trans (h.array m)⟩

theorem SameTables.sameNumbers (h : SameTables H H') : SameNumbers H H' :=
  ⟨h.vmCount, h.nrVcpus, h.vms, h.array⟩

theorem sameNumbers_vmInitVcpu {cpu : PcpuId} {syscounter : VcpuId → U64} {m : VmId} {v : VcpuId}
    (h : vmInitVcpu conf cpu syscounter m H v = some H') : SameNumbers H H' := by
  obtain ⟨J, hJ, h⟩ := Option.bind_eq_some_iff.mp h
  obtain ⟨vcpu, -, h⟩ := Option.bind_eq_some_iff.mp h
  obtain ⟨vcpu', -, hJ⟩ := Option.bind_eq_some_iff.mp hJ
  obtain ⟨timers, -, hJ⟩ := Option.bind_eq_some_iff.mp hJ
  rw [← Option.some.inj h, ← Option.some.inj hJ]
  split
  · exact ⟨rfl, rfl, fun _ => rfl, fun _ => rfl⟩
  · exact ⟨rfl, rfl, fun _ => rfl, fun _ => rfl⟩

/-- `vm_init` numbers nothing. -/
theorem sameNumbers_vmInit {cpu : PcpuId} {syscounter : VcpuId → U64} {m : VmId}
    {r : Hypervisor gPolicy × Option VmcbState} (h : vmInit conf cpu syscounter m H = some r) :
    SameNumbers H r.1 := by
  rw [vmInit] at h
  cases hm : H.sys.vms m with
  | none =>
      rw [hm] at h
      rw [← Option.some.inj h]
      exact .refl H
  | some vmem =>
      rw [hm] at h
      obtain ⟨J, hJ, h⟩ := Option.bind_eq_some_iff.mp h
      obtain ⟨⟨vmem', mem, regs⟩, -, h⟩ := Option.bind_eq_some_iff.mp h
      rw [← Option.some.inj h]
      have hrun : SameNumbers H J := run_invariant hJ (.refl H) fun u v _ u' hu hu' =>
        hu.trans (sameNumbers_vmInitVcpu hu')
      have hlive : (J.sys.vms m).isSome = true := by rw [hrun.vms, hm, Option.isSome_some]
      have hstate : SameFrame J (J.setVmState m .halted) := sameFrame_setVmcb rfl
      have hmem : SameNumbers (J.setVmState m .halted)
          ({ J.setVmState m .halted with mem := mem }.setVmem m vmem') := by
        refine ⟨rfl, rfl, fun m' => ?_, fun _ => rfl⟩
        exact (sameFrame_setVmem (H := { J.setVmState m .halted with mem := mem }) hlive).vms m'
      exact (hrun.trans hstate.sameNumbers).trans
        (hmem.trans ⟨rfl, rfl, fun _ => rfl, fun _ => rfl⟩)

/-! ## Every call -/

theorem Records.array_of_isSome (h : Records H L) {m : VmId} (hm : (H.sys.vms m).isSome = true) :
    ∃ first n, L.machines m = some (first, n) ∧ (H.vmcb m).vcpu = List.range' first n := by
  cases hL : L.machines m with
  | none =>
      rw [h.gone m hL] at hm
      cases hm
  | some range =>
      obtain ⟨first, n⟩ := range
      exact ⟨first, n, rfl, (h.there m first n hL).2⟩

theorem Records.sameNumbers (h : Records H L) (hsame : SameNumbers H H') : Records H' L := by
  refine ⟨hsame.vmCount.trans h.vms, hsame.nrVcpus.trans h.vcpus, fun m hm => ?_,
    fun m first n hm => ?_⟩
  · have hgone := hsame.vms m
    rwa [h.gone m hm, Option.isSome_none, Option.isSome_eq_false_iff, Option.isNone_iff_eq_none]
      at hgone
  · rw [hsame.vms, hsame.array]
    exact h.there m first n hm

theorem Records.vmCreate (h : Records H L) (conf : HvConf) (numVcpus : U8) (type : VmcbType)
    (alloc : VmAlloc) :
    Records (vmCreate conf numVcpus type alloc H).1 (L.after (.vmCreate numVcpus type alloc)) := by
  rw [IdLedger.after]
  by_cases hvm : alloc.vm = true
  · rw [if_pos hvm]
    by_cases hall : alloc.succeeds numVcpus.toNat = true
    · obtain ⟨-, hcreated⟩ := vmCreate_of_succeeds conf type H hall
      obtain ⟨-, harray, hcount⟩ := created_of_succeeds hall
      obtain ⟨vmem, hvms⟩ := hcreated.vms
      obtain ⟨vm, hvmcb, hids⟩ := hcreated.vmcb
      rw [if_pos hall, if_pos harray, created_eq_of_all hcount]
      refine ⟨hcreated.vmCount.trans (by rw [h.vms]), hcreated.nrVcpus.trans (by rw [h.vcpus]),
        fun m hm => ?_, fun m first n hm => ?_⟩
      · rw [hvms, h.vms]
        dsimp only at hm
        by_cases hself : m = L.vms
        · rw [hself, Function.update_self] at hm
          cases hm
        · rw [Function.update_of_ne hself] at hm ⊢
          exact h.gone m hm
      · rw [hvms, hvmcb, h.vms]
        dsimp only at hm
        by_cases hself : m = L.vms
        · rw [hself, Function.update_self, Option.some.injEq, Prod.mk.injEq] at hm
          rw [hself, Function.update_self, Function.update_self, hids, h.vcpus, hm.1, hm.2]
          exact ⟨rfl, rfl⟩
        · rw [Function.update_of_ne hself] at hm ⊢
          rw [Function.update_of_ne hself]
          exact h.there m first n hm
    · obtain ⟨-, hcount, hnr, hsame⟩ := vmCreate_of_fails conf type H hvm hall
      rw [if_neg hall]
      refine ⟨hcount.trans (by rw [h.vms]), hnr.trans (by rw [h.vcpus]), fun m hm => ?_,
        fun m first n hm => ?_⟩
      · rw [hsame.vms]
        exact h.gone m hm
      · rw [hsame.vms, hsame.vmcb]
        exact h.there m first n hm
  · rw [if_neg hvm, KHypervisor.vmCreate, if_neg hvm]
    exact h

theorem Records.vmDelete (h : Records H L) {m : VmId} {r : Hypervisor gPolicy × Option VmcbState}
    (hr : vmDelete conf m H = some r) : Records r.1 (L.after (.vmDelete m)) := by
  have hafter : L.after (.vmDelete m) =
      { L with machines := Function.update L.machines m none } := rfl
  rw [hafter]
  rcases vmDelete_spec hr with ⟨hnone, hsame⟩ | ⟨-, -, hdeletes⟩
  · rw [hsame]
    refine ⟨h.vms, h.vcpus, fun m' hm' => ?_, fun m' first n hm' => ?_⟩
    · dsimp only at hm'
      by_cases hself : m' = m
      · rw [hself]
        exact hnone
      · rw [Function.update_of_ne hself] at hm'
        exact h.gone m' hm'
    · dsimp only at hm'
      by_cases hself : m' = m
      · rw [hself, Function.update_self] at hm'
        cases hm'
      · rw [Function.update_of_ne hself] at hm'
        exact h.there m' first n hm'
  · refine ⟨hdeletes.vmCount.trans h.vms, hdeletes.nrVcpus.trans h.vcpus, fun m' hm' => ?_,
      fun m' first n hm' => ?_⟩
    · dsimp only at hm'
      rw [hdeletes.vms]
      by_cases hself : m' = m
      · rw [hself, Function.update_self]
      · rw [Function.update_of_ne hself] at hm' ⊢
        exact h.gone m' hm'
    · dsimp only at hm'
      rw [hdeletes.vms, hdeletes.vmcb]
      by_cases hself : m' = m
      · rw [hself, Function.update_self] at hm'
        cases hm'
      · rw [Function.update_of_ne hself] at hm' ⊢
        exact h.there m' first n hm'

theorem Records.step (h : Records H L) {call : IdCall} (hstep : idStep conf H call = some H') :
    Records H' (L.after call) := by
  have hcall := hvCall_of_hvStep hstep
  cases call with
  | vmCreate numVcpus type alloc =>
      rw [← Option.some.inj hcall]
      exact h.vmCreate conf numVcpus type alloc
  | vmInit cpu syscounter m =>
      obtain ⟨r, hr, rfl⟩ := Option.map_eq_some_iff.mp hcall
      exact h.sameNumbers (sameNumbers_vmInit hr)
  | vmDelete m =>
      obtain ⟨r, hr, rfl⟩ := Option.map_eq_some_iff.mp hcall
      exact h.vmDelete hr

/-! ## Which calls exceed the tables -/

theorem Records.pcpusInTable_iff (h : Records H L) (m : VmId) :
    PcpusInTable conf tables m H ↔ ¬ PcpuExceeds conf tables m L := by
  constructor
  · rintro hin ⟨first, n, hm, v, hv, hv', hexceeds⟩
    obtain ⟨hlive, harray⟩ := h.there m first n hm
    have hmem : v ∈ (H.vmcb m).vcpu := by
      rw [harray]
      exact List.mem_range'_1.mpr ⟨hv, hv'⟩
    exact absurd (hin hlive v hmem) (Nat.not_lt_of_le hexceeds)
  · intro hnot hlive v hv
    obtain ⟨first, n, hm, harray⟩ := h.array_of_isSome hlive
    rw [harray, List.mem_range'_1] at hv
    by_contra hexceeds
    exact hnot ⟨first, n, hm, v, hv.1, hv.2, Nat.le_of_not_lt hexceeds⟩

/-- A block of numbers is within the table of all virtual processors. -/
theorem range_lt_totalVcpus_iff (first n : ℕ) :
    (∀ v ∈ List.range' first n, v < totalVcpus ∧ v ≠ vcpuidInvalid) ↔
      ¬ (n ≠ 0 ∧ totalVcpus < first + n) := by
  have hinvalid : totalVcpus ≤ vcpuidInvalid := by decide
  constructor
  · rintro hall ⟨hn, hexceeds⟩
    have hlast := hall (first + n - 1) (List.mem_range'_1.mpr (by omega))
    omega
  · intro hfits v hv
    rw [List.mem_range'_1] at hv
    omega

theorem vmCreate_inTables_iff (h : Records H L) {numVcpus : U8} {type : VmcbType}
    {alloc : VmAlloc} (hstep : idStep conf H (.vmCreate numVcpus type alloc) = some H') :
    IdsInTables conf tables H (.vmCreate numVcpus type alloc) H' ↔
      ¬ Exceeds conf tables L (.vmCreate numVcpus type alloc) := by
  rw [IdsInTables, Exceeds, ← Option.some.inj (hvCall_of_hvStep hstep)]
  by_cases hall : alloc.succeeds numVcpus.toNat = true
  · obtain ⟨hid, hcreated⟩ := vmCreate_of_succeeds conf type H hall
    obtain ⟨vm, hvmcb, hids⟩ := hcreated.vmcb
    have harray : ((vmCreate conf numVcpus type alloc H).1.vmcb H.vmCount).vcpu =
        List.range' H.nrVcpus numVcpus.toNat := by
      rw [hvmcb, Function.update_self, hids]
    rw [and_iff_right hall, not_or, not_or, Nat.not_le, Nat.not_le, ← range_lt_totalVcpus_iff,
      ← h.vms, ← h.vcpus, ← harray, hid]
    constructor
    · exact fun hin => hin H.vmCount rfl
    · intro hin m hm
      rw [← Option.some.inj hm]
      exact hin
  · have hnone : (vmCreate conf numVcpus type alloc H).2 = none := by
      by_cases hvm : alloc.vm = true
      · exact (vmCreate_of_fails conf type H hvm hall).1
      · rw [vmCreate, if_neg hvm]
    refine iff_of_true (fun m hm => ?_) fun hexceeds => hall hexceeds.1
    rw [hnone] at hm
    cases hm

/-! ## Every sequence of calls -/

/-- For every sequence of calls, also with creations that fail, and for every configuration: every
number that is given out or looked up is an index of the tables exactly if no creation that
succeeds exceeds them, and no machine is initialised or deleted that has a virtual processor mapped
beyond the processors. -/
theorem ids_in_tables_iff (conf : HvConf) (blank : Blank gPolicy) (tables : IdTables)
    {calls : List IdCall} {H : Hypervisor gPolicy}
    (hrun : run (idStep conf) (Hypervisor.init conf blank) calls = some H) :
    Follows (idStep conf) (IdsInTables conf tables) (Hypervisor.init conf blank) calls ↔
      ¬ Happened ledgerStep (Exceeds conf tables) IdLedger.empty calls := by
  refine follows_iff_of_simulation hrun (records_init conf blank) ?_
  intro J call J' L hrecords hstep
  refine ⟨?_, _, rfl, hrecords.step hstep⟩
  cases call with
  | vmCreate numVcpus type alloc => exact vmCreate_inTables_iff hrecords hstep
  | vmInit cpu syscounter m => exact hrecords.pcpusInTable_iff m
  | vmDelete m => exact hrecords.pcpusInTable_iff m

/-- `schedconf_g_vcpu_to_pcpu_map`. -/
def schedconfGVcpuToPcpuMap : List PcpuId := [0, 1, 2, 3, 0, 0, 0, 0]

def mappedConf : HvConf := { sampleConf with vcpuToPcpu v := schedconfGVcpuToPcpuMap.getD v 0 }

/-- A platform with one processor, and the two machines of `vm_conf`. -/
def oneCpu : IdTables := ⟨2, 2, 1⟩

def bothCreated (vmid : VmId) : List IdCall :=
  [.vmCreate 1 .normal allAlloc, .vmCreate 1 .kmus allAlloc, .vmInit 0 (fun _ => 0) vmid]

theorem ids_in_tables_iff_firstInit : ∃ H,
    run (idStep mappedConf) (Hypervisor.init mappedConf sampleBlank) (bothCreated 0) = some H ∧
      (Follows (idStep mappedConf) (IdsInTables mappedConf oneCpu)
          (Hypervisor.init mappedConf sampleBlank) (bothCreated 0) ↔
        ¬ Happened ledgerStep (Exceeds mappedConf oneCpu) IdLedger.empty (bothCreated 0)) := by
  obtain ⟨H, hrun⟩ : ∃ H, run (idStep mappedConf) (Hypervisor.init mappedConf sampleBlank)
      (bothCreated 0) = some H := ⟨_, rfl⟩
  exact ⟨H, hrun, ids_in_tables_iff mappedConf sampleBlank oneCpu hrun⟩

/-- The virtual processor of the second machine is mapped to a second processor. -/
theorem second_vcpu_exceeds :
    ¬ ∀ (conf : HvConf) (blank : Blank fun _ => PolicyName.rr) (tables : IdTables)
      (calls : List IdCall) (H : Hypervisor fun _ => PolicyName.rr),
      run (idStep conf) (Hypervisor.init conf blank) calls = some H →
        Follows (idStep conf) (IdsInTables conf tables) (Hypervisor.init conf blank) calls := by
  intro h
  obtain ⟨H, hrun⟩ : ∃ H, run (idStep mappedConf) (Hypervisor.init mappedConf sampleBlank)
      (bothCreated 1) = some H := ⟨_, rfl⟩
  obtain ⟨J, hJ, -, K, hK, -, M, -, hpcpus, -⟩ := h mappedConf sampleBlank oneCpu _ H hrun
  rw [← Option.some.inj hJ] at hK
  rw [← Option.some.inj hK] at hpcpus
  exact absurd (hpcpus rfl 1 List.mem_cons_self) (by decide)

end KHypervisor
