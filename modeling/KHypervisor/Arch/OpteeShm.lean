import KHypervisor.Arch.Optee
import KHypervisor.Lib.Run
import KHypervisor.Paging.LastWriter

/-!
# Slices of the shared memory

Every virtual machine is told a slice of the memory that the normal world shares with the trusted
OS. The slices are disjoint, but the mapping that comes with the answer is that of the whole
region: `handle_optee_get_shm_config` passes `shm.base` and `shm.size` on to
`paging_add_ipa_mapping`, not the slice it has just computed. A virtual machine is confined to its
slice only where the slice is all there is to map (`shm_isolated_iff`).
-/

namespace KHypervisor

open Run RadixTable

/-! ## What a mapping gives access to -/

/-- A page that the call maps translates to the physical address. -/
def MapCall.Reaches (c : MapCall) (a : BitVec 40) : Prop :=
  ∃ k ipa, k * 0x1000 < c.size.toNat ∧ c.pageAt k = pageNo ipa ∧
    outputAddr (c.descAt k).raw ipa = a

/-- The addresses that a call reaches are those of consecutive pages. -/
theorem MapCall.reaches_iff {c : MapCall} (hend : c.pa.toNat + c.size.toNat ≤ 2 ^ 32)
    (a : BitVec 40) :
    c.Reaches a ↔ c.pa.toNat / 0x1000 ≤ a.toNat / 0x1000 ∧
      a.toNat / 0x1000 < c.pa.toNat / 0x1000 + pagesOf c.size := by
  constructor
  · rintro ⟨k, ipa, hk, -, rfl⟩
    have hpages := lt_pagesOf.mpr hk
    rw [c.toNat_outputAddr_descAt, toNat_add_round hk hend]
    omega
  · rintro ⟨hlow, hhigh⟩
    obtain ⟨k, hpage⟩ := Nat.exists_eq_add_of_le hlow
    have hk : k * 0x1000 < c.size.toNat := lt_pagesOf.mp (by omega)
    obtain ⟨ipa, hipa, hoff⟩ :=
      exists_pageNo_offset (c.pageAt k) (Nat.mod_lt a.toNat (by omega : 0 < 0x1000))
    refine ⟨k, ipa, hk, hipa.symm, ?_⟩
    apply BitVec.eq_of_toNat_eq
    rw [c.toNat_outputAddr_descAt, toNat_add_round hk hend, hoff]
    omega

/-- The hardware finds the pages of a call as the call describes them, in any table. -/
theorem MapCall.reaches_iff_walk {base : U32} (hbase : PageAligned base)
    {s : RadixTable TableNode PageNo U64} {m m' : PhysMem} (h : HoldsTable m base s) {c : MapCall}
    (hm' : c.apply base m = some m') (hsize : c.size.toNat ≤ 0xFFFFF000) (a : BitVec 40) :
    c.Reaches a ↔ ∃ ipa desc, c.Covers (pageNo ipa) ∧
      walk m'.bytes (physAddr base) ipa = .page desc ∧ outputAddr desc ipa = a := by
  obtain ⟨u, hu, hheld⟩ := h.mapCall hbase hsize
  obtain rfl : u = m' := Option.some.inj (hu.symm.trans hm')
  have hwalk : ∀ k ipa, k * 0x1000 < c.size.toNat → c.pageAt k = pageNo ipa →
      walk u.bytes (physAddr base) ipa = .page (c.descAt k).raw := by
    intro k ipa hk hp
    have hop : (c.pageAt k, (c.descAt k).raw) ∈ c.ops := mem_ops.mpr ⟨k, hk, rfl⟩
    have hentry : (s.mapAll nodePath c.ops).entry (pageNo ipa) = (c.descAt k).raw := by
      apply entry_mapAll_of_forall
      · exact ⟨_, hop, hp⟩
      · intro op hop' hsame
        obtain ⟨k', hk', rfl⟩ := mem_ops.mp hop'
        rw [pageAt_injOn hk' hk (hsame.trans hp.symm)]
    have hlive : ∀ n ∈ nodePath (pageNo ipa), (s.mapAll nodePath c.ops).live n = true := by
      intro n hn
      rw [← hp] at hn
      exact (live_mapAll nodePath s c.ops n).mpr (Or.inr ⟨_, hop, hn⟩)
    rw [hheld.walk_eq hbase, lookup, if_pos hlive, hentry, Translation.ofEntry, descAt,
      getLsbD_setEntry_zero]
    rfl
  constructor
  · rintro ⟨k, ipa, hk, hp, ha⟩
    exact ⟨ipa, _, ⟨k, hk, hp⟩, hwalk k ipa hk hp, ha⟩
  · rintro ⟨ipa, desc, ⟨k, hk, hp⟩, hpage, ha⟩
    rw [hwalk k ipa hk hp, Translation.page.injEq] at hpage
    rw [← hpage] at ha
    exact ⟨k, ipa, hk, hp, ha⟩

/-! ## Calls one after the other -/

/-- What a virtual machine got: the range it was told, in `gpr[1]` and `gpr[2]`, and the call that
was made on its page table. -/
structure ShmGrant where
  vmid : VmId
  base : U32
  size : U32
  mapping : MapCall

def ShmGrant.Contains (g : ShmGrant) (a : ℕ) : Prop :=
  g.base.toNat ≤ a ∧ a < g.base.toNat + g.size.toNat

/-- The arguments that `handle_optee_get_shm_config` passes on to `paging_add_ipa_mapping`. -/
def shmMapping (shm : OpteeShm) : MapCall :=
  ⟨shm.base, shm.base, memattrNormalWtCacheable, 1, shm.size⟩

variable {k : ℕ}

structure ShmState (k : ℕ) where
  optee : OpteeState k
  grants : List ShmGrant

/-- `optee.c` before any call. -/
def ShmState.init (threads : Fin k → OpteeThread) (mem : PhysMem) : ShmState k :=
  ⟨⟨threads, ⟨0xFFFFFFFF, 0xFFFFFFFF, 0⟩, mem⟩, []⟩

def shmStep (conf : OpteeConf) (smc : SecureWorld) (s : ShmState k) (call : VmId × CoreRegs) :
    Option (ShmState k) :=
  (handleOpteeGetShmConfig conf smc call.1 call.2 s.optee).map fun r =>
    ⟨r.2, s.grants ++ [⟨call.1, r.1.gpr 1, r.1.gpr 2, shmMapping r.2.shm⟩]⟩

/-- The firmware has one answer to the question for the shared memory. -/
def AnswersShm (smc : SecureWorld) (base size : U32) : Prop :=
  ∀ functionId mem, (smc ![functionId, 0, 0, 0, 0, 0, 0, 0] mem).1.a1 = base ∧
    (smc ![functionId, 0, 0, 0, 0, 0, 0, 0] mem).1.a2 = size

/-- The virtual machines are kept apart within the shared memory at `base`. -/
structure ShmIsolated (base size : U32) (grants : List ShmGrant) : Prop where
  inside : ∀ g ∈ grants, base.toNat ≤ g.base.toNat ∧
    g.base.toNat + g.size.toNat ≤ base.toNat + size.toNat
  disjoint : ∀ g ∈ grants, ∀ g' ∈ grants, g.vmid ≠ g'.vmid → ∀ a, g.Contains a → ¬ g'.Contains a
  same : ∀ g ∈ grants, ∀ g' ∈ grants, g.vmid = g'.vmid → g.base = g'.base ∧ g.size = g'.size
  access : ∀ g ∈ grants, ∀ a, g.mapping.Reaches a → base.toNat ≤ a.toNat →
    a.toNat < base.toNat + size.toNat → g.Contains a.toNat

/-- The status that the handler leaves in `gpr[0]`, whatever the firmware has said. -/
theorem handleOpteeGetShmConfig_status {conf : OpteeConf} {smc : SecureWorld} {vmid : VmId}
    {regs : CoreRegs} {s : OpteeState k} {r : CoreRegs × OpteeState k}
    (h : handleOpteeGetShmConfig conf smc vmid regs s = some r) : r.1.gpr 0 = opteeSmcRetOk := by
  obtain ⟨u, -, h⟩ := Option.bind_eq_some_iff.mp h
  obtain ⟨mem, -, h⟩ := Option.bind_eq_some_iff.mp h
  rw [← Option.some.inj h]
  rfl

/-- The call that a grant speaks of is the one that the handler makes last. -/
theorem shmMapping_apply {conf : OpteeConf} {smc : SecureWorld} {vmid : VmId} {regs : CoreRegs}
    {s : OpteeState k} {r : CoreRegs × OpteeState k}
    (h : handleOpteeGetShmConfig conf smc vmid regs s = some r) :
    ∃ mem, (shmMapping r.2.shm).apply (conf.vmemBase vmid) mem = some r.2.mem := by
  rw [handleOpteeGetShmConfig] at h
  obtain ⟨u, -, hrest⟩ := Option.bind_eq_some_iff.mp h
  obtain ⟨mem, hmem, hr⟩ := Option.bind_eq_some_iff.mp hrest
  rw [← Option.some.inj hr]
  exact ⟨u.2.mem, hmem⟩

section Firmware

variable (conf : OpteeConf) {smc : SecureWorld} {base size : U32}

/-- The shared memory has not been asked for, or is the one of the firmware's answer. -/
def ShmKnown (base size : U32) (shm : OpteeShm) : Prop :=
  shm.base = 0xFFFFFFFF ∨ shm.base = base ∧ shm.size = size

/-- What every call by `vmid` grants. -/
def shmGrant (conf : OpteeConf) (base size : U32) (vmid : VmId) : ShmGrant where
  vmid := vmid
  base := base + size / conf.nrVms * BitVec.ofNat 32 vmid
  size := size / conf.nrVms
  mapping := ⟨base, base, memattrNormalWtCacheable, 1, size⟩

theorem opteeAskShm_spec (hanswer : AnswersShm smc base size) (hsize : size.toNat ≤ 0xFFFFF000)
    (regs : CoreRegs) {s : OpteeState k} (hs : ShmKnown base size s.shm) :
    ∃ r, opteeAskShm conf smc regs s = some r ∧ r.2.shm.base = base ∧ r.2.shm.size = size := by
  rw [opteeAskShm]
  by_cases hask : s.shm.base = 0xFFFFFFFF
  · obtain ⟨hbase, hregion⟩ := hanswer (regs.gpr 0) s.mem
    rw [if_pos hask]
    dsimp only
    rw [armSmcccSmc_gpr_one, armSmcccSmc_gpr_two, hbase, hregion, pagingAddMapping,
      mapLoop_total _ _ _ _ hsize]
    exact ⟨_, rfl, rfl, rfl⟩
  · rw [if_neg hask]
    exact ⟨_, rfl, hs.resolve_left hask⟩

/-- The region is mapped before anything is answered, and for the largest sizes that never ends. -/
theorem opteeAskShm_diverges (hanswer : AnswersShm smc base size)
    (hsize : 0xFFFFF000 < size.toNat) (regs : CoreRegs) {s : OpteeState k}
    (hs : s.shm.base = 0xFFFFFFFF) : opteeAskShm conf smc regs s = none := by
  obtain ⟨hbase, hregion⟩ := hanswer (regs.gpr 0) s.mem
  rw [opteeAskShm, if_pos hs]
  dsimp only
  rw [armSmcccSmc_gpr_one, armSmcccSmc_gpr_two, hbase, hregion, pagingAddMapping,
    mapLoop_diverges _ hsize _ (Nat.dvd_zero _), Option.map_none]

/-- Whatever has been asked before, a virtual machine is granted the same. -/
theorem shmStep_spec (hanswer : AnswersShm smc base size) (hsize : size.toNat ≤ 0xFFFFF000)
    {s : ShmState k} (hs : ShmKnown base size s.optee.shm) (call : VmId × CoreRegs) :
    ∃ t, shmStep conf smc s call = some t ∧ ShmKnown base size t.optee.shm ∧
      t.grants = s.grants ++ [shmGrant conf base size call.1] := by
  obtain ⟨r, hr, hbase, hregion⟩ := opteeAskShm_spec conf hanswer hsize call.2 hs
  rw [shmStep, handleOpteeGetShmConfig, hr]
  simp only [Option.bind_eq_bind, Option.bind_some, hbase, hregion, pagingAddIpaMapping,
    mapLoop_total _ _ _ _ hsize, Option.map_some]
  refine ⟨_, rfl, Or.inr ⟨hbase, hregion⟩, ?_⟩
  rw [shmMapping]
  dsimp only
  rw [hbase, hregion]
  rfl

theorem run_shmStep (hanswer : AnswersShm smc base size) (hsize : size.toNat ≤ 0xFFFFF000)
    {s : ShmState k} (hs : ShmKnown base size s.optee.shm) (calls : List (VmId × CoreRegs)) :
    ∃ t, run (shmStep conf smc) s calls = some t ∧
      t.grants = s.grants ++ calls.map fun call => shmGrant conf base size call.1 := by
  induction calls generalizing s with
  | nil => exact ⟨s, rfl, (List.append_nil _).symm⟩
  | cons call calls ih =>
      obtain ⟨u, hu, hknown, hgrants⟩ := shmStep_spec conf hanswer hsize hs call
      obtain ⟨t, ht, hlast⟩ := ih hknown
      refine ⟨t, ?_, ?_⟩
      · rw [run_cons, hu]
        exact ht
      · rw [hlast, hgrants, List.append_assoc]
        rfl

/-! ## The slices -/

theorem slice_next_le {v v' : ℕ} (h : v < v') (q : ℕ) : q * v + q ≤ q * v' := by
  rw [← Nat.mul_succ]
  exact Nat.mul_le_mul_left q h

theorem slice_le {n v : ℕ} (hv : v < n) (size : ℕ) : size / n * v + size / n ≤ size :=
  (slice_next_le hv _).trans (Nat.div_mul_le_self size n)

theorem toNat_shmGrant_size (conf : OpteeConf) (base size : U32) (vmid : VmId) :
    (shmGrant conf base size vmid).size.toNat = size.toNat / conf.nrVms.toNat :=
  BitVec.toNat_udiv

theorem toNat_shmGrant_base (hend : base.toNat + size.toNat ≤ 2 ^ 32) {vmid : VmId}
    (hv : vmid < conf.nrVms.toNat) :
    (shmGrant conf base size vmid).base.toNat =
      base.toNat + size.toNat / conf.nrVms.toNat * vmid := by
  have hslice := slice_le hv size.toNat
  have hbase := base.isLt
  have hvmid : vmid % 2 ^ 32 = vmid := Nat.mod_eq_of_lt (hv.trans conf.nrVms.isLt)
  have hsmall : base.toNat + size.toNat / conf.nrVms.toNat * vmid < 2 ^ 32 := by
    rcases Nat.eq_zero_or_pos (size.toNat / conf.nrVms.toNat) with hzero | hpos
    · rw [hzero, Nat.zero_mul]
      exact hbase
    · omega
  rw [shmGrant, BitVec.toNat_add, BitVec.toNat_mul, BitVec.toNat_udiv, BitVec.toNat_ofNat, hvmid,
    Nat.add_mod_mod, Nat.mod_eq_of_lt hsmall]

/-- The slice is that of the first machine, and reaches to the end of the last page mapped. -/
def ShmConfined (conf : OpteeConf) (base size : U32) (vmid : VmId) : Prop :=
  vmid = 0 ∧ (conf.nrVms = 1 ∨
    (base.toNat / 0x1000 + pagesOf size) * 0x1000 ≤
      base.toNat + size.toNat / conf.nrVms.toNat)

/-- When the addresses of some pages that lie in a region lie in one slice of it. -/
theorem pages_in_slice_iff {b s n v p : ℕ} (hend : b + s ≤ 2 ^ 32) (hv : v < n)
    (hp : s ≤ p * 0x1000) :
    (∀ a : BitVec 40, b / 0x1000 ≤ a.toNat / 0x1000 → a.toNat / 0x1000 < b / 0x1000 + p →
      b ≤ a.toNat → a.toNat < b + s → b + s / n * v ≤ a.toNat ∧ a.toNat < b + s / n * v + s / n) ↔
      s = 0 ∨ v = 0 ∧ (n = 1 ∨ (b / 0x1000 + p) * 0x1000 ≤ b + s / n) := by
  constructor
  · intro h
    rcases Nat.eq_zero_or_pos s with hs | hs
    · exact Or.inl hs
    have hat : ∀ a < b + s, (BitVec.ofNat 40 a).toNat = a := fun a ha =>
      Nat.mod_eq_of_lt (by omega)
    -- the region begins in the slice, so the slice is the first and not empty
    have hfirst := h (BitVec.ofNat 40 b)
    rw [hat b (by omega)] at hfirst
    obtain ⟨hlow, hhigh⟩ := hfirst le_rfl (by omega) le_rfl (by omega)
    have hpos : 0 < s / n := by omega
    have hoffset : s / n * v = 0 := by omega
    have hzero : v = 0 := (Nat.mul_eq_zero.mp hoffset).resolve_left (by omega)
    refine Or.inr ⟨hzero, or_iff_not_imp_left.mpr fun hn => ?_⟩
    have hhalf : s / n < s := Nat.div_lt_self hs (by omega)
    by_contra hpast
    have hnext := h (BitVec.ofNat 40 (b + s / n))
    rw [hat _ (by omega), hzero, Nat.mul_zero] at hnext
    exact absurd (hnext (by omega) (by omega) (by omega) (by omega)).2 (by omega)
  · rintro (hs | ⟨rfl, hn | hlast⟩) a - hpage hlow hhigh
    · omega
    · rw [hn, Nat.div_one]
      omega
    · omega

theorem shmGrant_access_iff (hend : base.toNat + size.toNat ≤ 2 ^ 32) {vmid : VmId}
    (hv : vmid < conf.nrVms.toNat) :
    (∀ a, (shmGrant conf base size vmid).mapping.Reaches a → base.toNat ≤ a.toNat →
      a.toNat < base.toNat + size.toNat → (shmGrant conf base size vmid).Contains a.toNat) ↔
      size = 0 ∨ ShmConfined conf base size vmid := by
  have hreach : ∀ a, (shmGrant conf base size vmid).mapping.Reaches a ↔
      base.toNat / 0x1000 ≤ a.toNat / 0x1000 ∧
        a.toNat / 0x1000 < base.toNat / 0x1000 + pagesOf size :=
    MapCall.reaches_iff hend
  have hpages : size.toNat ≤ pagesOf size * 0x1000 := by
    rw [pagesOf]
    omega
  have hone : conf.nrVms = 1 ↔ conf.nrVms.toNat = 1 := BitVec.toNat_eq
  have hempty : size = 0 ↔ size.toNat = 0 := BitVec.toNat_eq
  rw [ShmConfined, hone, hempty, ← pages_in_slice_iff hend hv hpages]
  simp only [hreach, ShmGrant.Contains, toNat_shmGrant_base conf hend hv,
    toNat_shmGrant_size, and_imp]

/-- The ranges are those of the slices, and only the access can go beyond them. -/
theorem shmIsolated_iff (hend : base.toNat + size.toNat ≤ 2 ^ 32) {calls : List (VmId × CoreRegs)}
    (hcalls : ∀ call ∈ calls, call.1 < conf.nrVms.toNat) :
    ShmIsolated base size (calls.map fun call => shmGrant conf base size call.1) ↔
      size = 0 ∨ ∀ call ∈ calls, ShmConfined conf base size call.1 := by
  have hmem : ∀ {P : ShmGrant → Prop},
      (∀ g ∈ calls.map fun call => shmGrant conf base size call.1, P g) ↔
        ∀ call ∈ calls, P (shmGrant conf base size call.1) := List.forall_mem_map
  constructor
  · intro h
    refine or_iff_not_imp_left.mpr fun hsize call hcall => ?_
    exact ((shmGrant_access_iff conf hend (hcalls call hcall)).mp
      (hmem.mp h.access call hcall)).resolve_left hsize
  · intro h
    refine ⟨hmem.mpr ?_, hmem.mpr ?_, hmem.mpr ?_, hmem.mpr ?_⟩
    · intro call hcall
      have hslice := slice_le (hcalls call hcall) size.toNat
      rw [toNat_shmGrant_base conf hend (hcalls call hcall), toNat_shmGrant_size]
      omega
    · intro call hcall
      refine hmem.mpr fun call' hcall' (hne : call.1 ≠ call'.1) => ?_
      simp only [ShmGrant.Contains, toNat_shmGrant_base conf hend (hcalls call hcall),
        toNat_shmGrant_base conf hend (hcalls call' hcall'), toNat_shmGrant_size]
      rintro a ⟨hlow, hhigh⟩ ⟨hlow', hhigh'⟩
      rcases Nat.lt_or_gt_of_ne hne with hlt | hlt
      · have hnext := slice_next_le hlt (size.toNat / conf.nrVms.toNat)
        omega
      · have hnext := slice_next_le hlt (size.toNat / conf.nrVms.toNat)
        omega
    · intro call _
      refine hmem.mpr fun call' _ hsame => ?_
      rw [show call.1 = call'.1 from hsame]
      exact ⟨rfl, rfl⟩
    · intro call hcall
      refine (shmGrant_access_iff conf hend (hcalls call hcall)).mpr ?_
      exact h.imp_right fun hall => hall call hcall

end Firmware

/-- For every answer of the firmware that does not overflow and every sequence of calls: they all
return and keep the virtual machines apart, in their ranges and in what they can access, exactly
if nobody calls, or the region can be mapped and is empty or only the first machine calls and its
slice reaches to the end of the last page mapped. -/
theorem shm_isolated_iff (conf : OpteeConf) (smc : SecureWorld) {base size : U32}
    (hanswer : AnswersShm smc base size) (hend : base.toNat + size.toNat ≤ 2 ^ 32)
    (threads : Fin k → OpteeThread) (mem : PhysMem) {calls : List (VmId × CoreRegs)}
    (hcalls : ∀ call ∈ calls, call.1 < conf.nrVms.toNat) :
    (∃ t, run (shmStep conf smc) (ShmState.init threads mem) calls = some t ∧
      ShmIsolated base size t.grants) ↔
      calls = [] ∨ size.toNat ≤ 0xFFFFF000 ∧
        (size = 0 ∨ ∀ call ∈ calls, ShmConfined conf base size call.1) := by
  have hknown : ShmKnown base size (ShmState.init threads mem).optee.shm := Or.inl rfl
  by_cases hsize : size.toNat ≤ 0xFFFFF000
  · obtain ⟨t, ht, hgrants⟩ := run_shmStep conf hanswer hsize hknown calls
    rw [ShmState.init, List.nil_append] at hgrants
    have hlaw : (∃ t, run (shmStep conf smc) (ShmState.init threads mem) calls = some t ∧
        ShmIsolated base size t.grants) ↔ ShmIsolated base size t.grants := by
      constructor
      · rintro ⟨u, hu, hisolated⟩
        rw [ht, Option.some.injEq] at hu
        rw [hu]
        exact hisolated
      · exact fun hisolated => ⟨t, ht, hisolated⟩
    rw [hlaw, hgrants, shmIsolated_iff _ hend hcalls, and_iff_right hsize]
    refine (or_iff_right_of_imp ?_).symm
    rintro rfl
    exact Or.inr (List.forall_mem_nil _)
  · cases calls with
    | nil =>
        have hnil : ShmIsolated base size (ShmState.init threads mem).grants :=
          ⟨List.forall_mem_nil _, List.forall_mem_nil _, List.forall_mem_nil _,
            List.forall_mem_nil _⟩
        exact iff_of_true ⟨_, rfl, hnil⟩ (Or.inl rfl)
    | cons call calls =>
        have hstuck :
            run (shmStep conf smc) (ShmState.init threads mem) (call :: calls) = none := by
          rw [run_cons, shmStep, handleOpteeGetShmConfig,
            opteeAskShm_diverges conf hanswer (by omega) _ rfl]
          rfl
        refine iff_of_false ?_ ?_
        · rintro ⟨t, ht, -⟩
          rw [hstuck] at ht
          cases ht
        · rintro (hnil | ⟨hfits, -⟩)
          · exact List.cons_ne_nil call calls hnil
          · exact hsize hfits

def twoSlices : OpteeConf :=
  ⟨2, 0x40000000, fun vmid => 0x50000000 + 0x805000 * BitVec.ofNat 32 vmid⟩

def fourPages : SecureWorld := fun _ mem => (⟨0, 0x9F000000, 0x4000, 1⟩, mem)

theorem fourPages_answersShm : AnswersShm fourPages 0x9F000000 0x4000 := fun _ _ => ⟨rfl, rfl⟩

def bothAsk : List (VmId × CoreRegs) := [(1, default), (0, default)]

theorem bothAsk_lt : ∀ call ∈ bothAsk, call.1 < twoSlices.nrVms.toNat := by
  simp [bothAsk, twoSlices]

/-- Four pages for two virtual machines. -/
theorem shm_isolated_iff_twoSlices :
    AnswersShm fourPages 0x9F000000 0x4000 ∧ (∀ call ∈ bothAsk, call.1 < twoSlices.nrVms.toNat) ∧
      ((∃ t, run (shmStep twoSlices fourPages)
          (ShmState.init (fun _ : Fin 8 => ⟨0, false, 0⟩) onesMem) bothAsk = some t ∧
        ShmIsolated 0x9F000000 0x4000 t.grants) ↔
        bothAsk = [] ∨ (0x4000 : U32).toNat ≤ 0xFFFFF000 ∧
          ((0x4000 : U32) = 0 ∨
            ∀ call ∈ bothAsk, ShmConfined twoSlices 0x9F000000 0x4000 call.1)) :=
  ⟨fourPages_answersShm, bothAsk_lt,
    shm_isolated_iff twoSlices fourPages fourPages_answersShm (by decide) _ _ bothAsk_lt⟩

/-- The second machine is told the last two pages and can access all four. -/
theorem whole_region_mapped :
    ¬ ∀ (conf : OpteeConf) (smc : SecureWorld) (base size : U32), AnswersShm smc base size →
      base.toNat + size.toNat ≤ 2 ^ 32 → ∀ (threads : Fin 8 → OpteeThread) (mem : PhysMem)
      (calls : List (VmId × CoreRegs)), (∀ call ∈ calls, call.1 < conf.nrVms.toNat) →
      ∃ t, run (shmStep conf smc) (ShmState.init threads mem) calls = some t ∧
        ShmIsolated base size t.grants := by
  intro h
  have hend : (0x9F000000 : U32).toNat + (0x4000 : U32).toNat ≤ 2 ^ 32 := by decide
  obtain ⟨t, ht, hisolated⟩ := h twoSlices fourPages 0x9F000000 0x4000 fourPages_answersShm hend
    (fun _ => ⟨0, false, 0⟩) onesMem bothAsk bothAsk_lt
  obtain ⟨u, hu, hgrants⟩ := run_shmStep twoSlices fourPages_answersShm (by decide)
    (Or.inl rfl : ShmKnown 0x9F000000 0x4000
      (ShmState.init (fun _ : Fin 8 => ⟨0, false, 0⟩) onesMem).optee.shm) bothAsk
  rw [ht, Option.some.injEq] at hu
  rw [hu, hgrants, ShmState.init, List.nil_append, shmIsolated_iff _ hend bothAsk_lt] at hisolated
  have hsecond := hisolated.resolve_left (by decide) (1, default) List.mem_cons_self
  exact absurd hsecond.1 (by decide)

end KHypervisor
