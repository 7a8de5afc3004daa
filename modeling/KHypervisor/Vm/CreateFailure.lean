import KHypervisor.Vm.Identifiers

/-!
# A creation that fails

`vm_create` calls `malloc` for the machine, for the array of its virtual processors and for each of
these. If one of the later calls fails, nobody gives back what the earlier ones returned, but for
the machine itself, and the virtual processors that have been created stay in `vcpu_list`
(`vmCreate_leaves`, `blocksLeft_of_fails`). A creation that fails leaves no trace only if already
the first call fails (`atomicCreation_iff`).
-/

namespace KHypervisor

open Hypervisor

variable {gPolicy : PcpuId → PolicyName}

/-! ## The heap -/

/-- The blocks that `vm_create` and `vcpu_create` ask for. -/
inductive CreateBlock
  | vm (vmid : VmId)
  | array (vmid : VmId)
  | vcpu (v : VcpuId)
deriving DecidableEq

/-- The calls of `malloc` that succeed, and those of `free`. -/
inductive HeapCall
  | malloc (block : CreateBlock)
  | free (block : CreateBlock)

def HeapCall.after (blocks : List CreateBlock) : HeapCall → List CreateBlock
  | .malloc block => block :: blocks
  | .free block => blocks.erase block

def blocksLeft (calls : List HeapCall) : List CreateBlock := calls.foldl HeapCall.after []

/-- The calls in the loop of `vm_create`, over the indices that are left. -/
def createVcpusHeap (type : VmcbType) (vmid : VmId) (alloc : ℕ → Bool) :
    List ℕ → Hypervisor gPolicy → List HeapCall
  | [], _ => []
  | i :: is, H =>
      if alloc i then
        .malloc (.vcpu H.nrVcpus) ::
          createVcpusHeap type vmid alloc is (H.createVcpu type vmid i)
      else [.free (.vm vmid)]

/-- The calls of `malloc` and of `free` that `vm_create` makes. -/
def vmCreateHeap (numVcpus : U8) (type : VmcbType) (alloc : VmAlloc) (H : Hypervisor gPolicy) :
    List HeapCall :=
  if alloc.vm then
    let vmid := H.vmCount
    let H := { H with vmCount := vmid + 1 }
    .malloc (.vm vmid) ::
      if alloc.array then
        .malloc (.array vmid) ::
          createVcpusHeap type vmid alloc.vcpu (List.range numVcpus.toNat) H
      else []
  else []

/-! ## The law -/

/-- `vm_list` and `vcpu_list` have the same objects. -/
structure SameObjects (H H' : Hypervisor gPolicy) : Prop where
  vms : ∀ m, (H'.sys.vms m).isSome = (H.sys.vms m).isSome
  vcpus : ∀ v, (H'.sys.vcpus v).isSome = (H.sys.vcpus v).isSome

/-- The machine is there with `n` virtual processors, which are there and have its number and
their own. -/
structure Hypervisor.Complete (H : Hypervisor gPolicy) (vmid : VmId) (n : ℕ) : Prop where
  vm : (H.sys.vms vmid).isSome = true
  length : (H.vmcb vmid).vcpu.length = n
  vcpu : ∀ i v, (H.vmcb vmid).vcpu[i]? = some v →
    ∃ vcpu, H.sys.vcpus v = some vcpu ∧ vcpu.vmid = vmid ∧ vcpu.id = i

/-- A creation that fails leaves the lists as they are and has freed what it allocated; one that
does not is complete. -/
structure AtomicCreation (conf : HvConf) (numVcpus : U8) (type : VmcbType) (alloc : VmAlloc)
    (H : Hypervisor gPolicy) : Prop where
  failed : (vmCreate conf numVcpus type alloc H).2 = none →
    SameObjects H (vmCreate conf numVcpus type alloc H).1 ∧
      blocksLeft (vmCreateHeap numVcpus type alloc H) = []
  created : ∀ vmid, (vmCreate conf numVcpus type alloc H).2 = some vmid →
    (vmCreate conf numVcpus type alloc H).1.Complete vmid numVcpus.toNat

variable {conf : HvConf} {numVcpus : U8} {type : VmcbType} {alloc : VmAlloc}
  {H : Hypervisor gPolicy}

/-! ## What is left on the heap -/

theorem foldl_after_malloc (news blocks : List CreateBlock) :
    (news.map HeapCall.malloc).foldl HeapCall.after blocks = news.reverse ++ blocks := by
  induction news generalizing blocks with
  | nil => rfl
  | cons block news ih =>
      rw [List.map_cons, List.foldl_cons, ih, HeapCall.after, List.reverse_cons, List.append_assoc,
        List.singleton_append]

/-- The loop of `vm_create` allocates the virtual processors that it numbers. -/
theorem createVcpusHeap_eq (type : VmcbType) (vmid : VmId) (alloc : ℕ → Bool) (is : List ℕ)
    (H : Hypervisor gPolicy) :
    createVcpusHeap type vmid alloc is H =
      ((List.range' H.nrVcpus (is.takeWhile alloc).length).map CreateBlock.vcpu).map
          HeapCall.malloc ++
        if is.all alloc then [] else [.free (.vm vmid)] := by
  induction is generalizing H with
  | nil => rfl
  | cons i is ih =>
      by_cases hi : alloc i = true
      · have hnext : (H.createVcpu type vmid i).nrVcpus = H.nrVcpus + 1 := rfl
        rw [createVcpusHeap, if_pos hi, ih, hnext, List.takeWhile_cons_of_pos hi, List.all_cons, hi,
          Bool.true_and, List.length_cons, List.range'_succ, List.map_cons, List.map_cons,
          List.cons_append]
      · rw [createVcpusHeap, if_neg hi, List.takeWhile_cons_of_neg hi, List.all_cons,
          (Bool.not_eq_true _).mp hi, Bool.false_and]
        rfl

/-- A creation that fails after the first call of `malloc` leaves the machine on the heap, or the
array and every virtual processor that it has created. -/
theorem blocksLeft_of_fails (hvm : alloc.vm = true) (h : ¬ alloc.succeeds numVcpus.toNat = true) :
    blocksLeft (vmCreateHeap numVcpus type alloc H) =
      if alloc.array then
        ((List.range' H.nrVcpus (alloc.created numVcpus.toNat)).map CreateBlock.vcpu).reverse ++
          [.array H.vmCount]
      else [.vm H.vmCount] := by
  rw [blocksLeft, vmCreateHeap, if_pos hvm]
  dsimp only
  by_cases harray : alloc.array = true
  · have hall := not_all_of_fails hvm harray h
    have hother : CreateBlock.vm H.vmCount ∉
        ((List.range' H.nrVcpus (alloc.created numVcpus.toNat)).map CreateBlock.vcpu).reverse := by
      simp
    have hlast : [CreateBlock.array H.vmCount, .vm H.vmCount].erase (.vm H.vmCount) =
        [.array H.vmCount] := by
      rw [List.erase_cons_tail (by simp), List.erase_cons_head]
    rw [if_pos harray, if_pos harray, createVcpusHeap_eq, if_neg hall, List.foldl_cons,
      List.foldl_cons, List.foldl_append, foldl_after_malloc]
    exact (List.erase_append_right [.array H.vmCount, .vm H.vmCount] hother).trans
      (congrArg (_ ++ ·) hlast)
  · rw [if_neg harray, if_neg harray]
    rfl

/-! ## What is left in the lists -/

theorem vmCreate_vcpus (hvm : alloc.vm = true) (harray : alloc.array = true) :
    (vmCreate conf numVcpus type alloc H).1.sys.vcpus =
      (createVcpus type H.vmCount alloc.vcpu (List.range numVcpus.toNat) []
        { H with vmCount := H.vmCount + 1 }).1.sys.vcpus := by
  rw [vmCreate, if_pos hvm]
  dsimp only
  rw [if_pos harray]
  split
  · rename_i hr
    rw [hr]
    rfl
  · rename_i hr
    rw [hr]

/-- The virtual processors that a creation has numbered before it fails stay in `vcpu_list`, with
the number of a machine that has not come to be. -/
theorem vmCreate_leaves (hvm : alloc.vm = true) (harray : alloc.array = true)
    (h : ¬ alloc.succeeds numVcpus.toNat = true) {v : VcpuId} (hv : H.nrVcpus ≤ v)
    (hv' : v < H.nrVcpus + alloc.created numVcpus.toNat) :
    (∃ vcpu, (vmCreate conf numVcpus type alloc H).1.sys.vcpus v = some vcpu ∧
      vcpu.vmid = H.vmCount) ∧
      (vmCreate conf numVcpus type alloc H).1.sys.vms H.vmCount = H.sys.vms H.vmCount := by
  obtain ⟨-, -, hnr, hsame⟩ := vmCreate_of_fails conf type H hvm h
  rw [if_pos harray] at hnr
  exact ⟨((creates_vmCreate conf numVcpus type alloc H).new v hv (by rwa [hnr])).1,
    by rw [hsame.vms]⟩

/-- What the loop of `vm_create` makes of the virtual processors. -/
theorem createVcpus_vcpus (type : VmcbType) (vmid : VmId) (alloc : ℕ → Bool) {is : List ℕ}
    (hall : ∀ i ∈ is, alloc i = true) (array : List VcpuId) (H : Hypervisor gPolicy) {k i : ℕ}
    (hk : is[k]? = some i) :
    (createVcpus type vmid alloc is array H).1.sys.vcpus (H.nrVcpus + k) =
      some { (default : Vcpu) with vmid := vmid, id := i, map := createMap } := by
  induction is generalizing array H k with
  | nil => simp at hk
  | cons j is ih =>
      have hnext : (H.createVcpu type vmid j).nrVcpus = H.nrVcpus + 1 := rfl
      rw [createVcpus_cons type vmid alloc j is array H (hall j List.mem_cons_self)]
      cases k with
      | zero =>
          obtain ⟨hcreates, -⟩ := createVcpus_spec type vmid alloc is (array ++ [H.nrVcpus])
            (H.createVcpu type vmid j)
          rw [List.getElem?_cons_zero, Option.some.injEq] at hk
          rw [Nat.add_zero, (hcreates.old _ (.inl (Nat.lt_succ_self _))).1, createVcpu_vcpus, hk]
          exact Function.update_self ..
      | succ k =>
          rw [List.getElem?_cons_succ] at hk
          have hlater := ih (fun i hi => hall i (List.mem_cons_of_mem _ hi))
            (array ++ [H.nrVcpus]) (H.createVcpu type vmid j) hk
          rwa [hnext, Nat.add_right_comm] at hlater

theorem complete_of_succeeds (h : alloc.succeeds numVcpus.toNat = true) :
    (vmCreate conf numVcpus type alloc H).1.Complete H.vmCount numVcpus.toNat := by
  obtain ⟨-, hcreated⟩ := vmCreate_of_succeeds conf type H h
  obtain ⟨hvm, harray, hall⟩ := created_of_succeeds h
  obtain ⟨vmem, hvms⟩ := hcreated.vms
  obtain ⟨vm, hvmcb, hids⟩ := hcreated.vmcb
  have hself : ((vmCreate conf numVcpus type alloc H).1.vmcb H.vmCount).vcpu =
      List.range' H.nrVcpus numVcpus.toNat := by
    rw [hvmcb, Function.update_self, hids]
  refine ⟨by rw [hvms, Function.update_self, Option.isSome_some], ?_, fun i v hv => ?_⟩
  · rw [hself, List.length_range']
  · rw [hself] at hv
    obtain ⟨hi, hv⟩ := List.getElem?_eq_some_iff.mp hv
    rw [List.getElem_range', Nat.one_mul] at hv
    rw [List.length_range'] at hi
    have hindex : (List.range numVcpus.toNat)[i]? = some i := List.getElem?_range hi
    rw [vmCreate_vcpus hvm harray, ← hv]
    exact ⟨_, createVcpus_vcpus type H.vmCount alloc.vcpu (List.all_eq_true.mp hall) []
      { H with vmCount := H.vmCount + 1 } hindex, rfl, rfl⟩

/-! ## Every creation -/

/-- In every state, for every number of virtual processors and whichever calls of `malloc` fail: a
creation is atomic exactly if its first call of `malloc` fails or all of them succeed. -/
theorem atomicCreation_iff (conf : HvConf) (numVcpus : U8) (type : VmcbType) (alloc : VmAlloc)
    (H : Hypervisor gPolicy) :
    AtomicCreation conf numVcpus type alloc H ↔
      (alloc.vm = true → alloc.succeeds numVcpus.toNat = true) := by
  constructor
  · intro hatomic hvm
    by_contra hfails
    obtain ⟨-, hleft⟩ := hatomic.failed (vmCreate_of_fails conf type H hvm hfails).1
    rw [blocksLeft_of_fails hvm hfails] at hleft
    split at hleft
    · exact absurd hleft (List.append_ne_nil_of_right_ne_nil _ (List.cons_ne_nil _ _))
    · exact absurd hleft (List.cons_ne_nil _ _)
  · intro hfine
    by_cases hvm : alloc.vm = true
    · obtain ⟨hid, -⟩ := vmCreate_of_succeeds conf type H (hfine hvm)
      refine ⟨fun hnone => ?_, fun vmid hvmid => ?_⟩
      · rw [hid] at hnone
        cases hnone
      · obtain rfl := Option.some.inj (hid.symm.trans hvmid)
        exact complete_of_succeeds (hfine hvm)
    · have hsame : vmCreate conf numVcpus type alloc H = (H, none) := by rw [vmCreate, if_neg hvm]
      refine ⟨fun _ => ⟨?_, ?_⟩, fun vmid hvmid => ?_⟩
      · rw [hsame]
        exact ⟨fun _ => rfl, fun _ => rfl⟩
      · rw [vmCreateHeap, if_neg hvm]
        rfl
      · rw [hsame] at hvmid
        cases hvmid

/-- The `malloc` for the second virtual processor fails. -/
def secondFails : VmAlloc := ⟨true, true, fun i => i == 0⟩

/-- The first of two virtual processors stays in `vcpu_list`. -/
theorem first_vcpu_stays :
    ¬ ∀ (conf : HvConf) (numVcpus : U8) (type : VmcbType) (alloc : VmAlloc)
      (H : Hypervisor fun _ => PolicyName.rr), AtomicCreation conf numVcpus type alloc H := by
  intro h
  obtain ⟨hsame, -⟩ := (h sampleConf 2 .normal secondFails
    (Hypervisor.init sampleConf sampleBlank)).failed rfl
  have hstays : ∃ vcpu, (vmCreate sampleConf 2 .normal secondFails
      (Hypervisor.init sampleConf sampleBlank)).1.sys.vcpus 0 = some vcpu ∧ vcpu.vmid = 0 :=
    (vmCreate_leaves rfl rfl (by decide) (Nat.le_refl 0) (by decide)).1
  obtain ⟨vcpu, hvcpu, -⟩ := hstays
  have hgone := hsame.vcpus 0
  rw [hvcpu] at hgone
  cases hgone

end KHypervisor
