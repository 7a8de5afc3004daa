import KHypervisor.Vdev.EnableLaw

/-!
# Software generated interrupts

Whom a write to `GICD_SGIR` interrupts. The virtual processors are numbered within the machine, but
the one that is left out where all others are meant is found by the number of the physical
processor (`deliversSgi_iff`).
-/

namespace KHypervisor

open BitScan

/-- The field `TargetListFilter` of a value that is written to `GICD_SGIR`. -/
def sgirFilter (value : U32) : ℕ := (value.extractLsb' 24 2).toNat

/-- The field `CPUTargetList`. -/
def sgirTargetList (value : U32) : U32 := (value.extractLsb' 16 8).setWidth 32

/-- The field `id`. -/
def sgirId (value : U32) : U32 := (value.extractLsb' 0 4).setWidth 32

/-- Virtual processor `target` of the machine is meant by a write of virtual processor `vcpuid`. -/
def IsSgiTarget (env : VgicdEnv) (vcpuid : ℕ) (value : U32) (target : ℕ) : Prop :=
  match sgirFilter value with
  | 0 => target < env.numVcpus ∧ (sgirTargetList value).getLsbD target = true
  | 1 => target < env.numVcpus ∧ target ≠ vcpuid
  | 2 => target = vcpuid
  | _ => False

/-- From `σ` to `σ'` those who are meant have been interrupted, each once, and nothing else has been
done. -/
structure DeliversSgi (env : VgicdEnv) (vcpuid : ℕ) (value : U32) (σ σ' : VgicdState) : Prop where
  same : { σ' with sgis := σ.sgis } = σ
  targets : ∃ ts : List ℕ, σ'.sgis = σ.sgis ++ ts.map (·, sgirId value) ∧ ts.Nodup ∧
    ∀ target, target ∈ ts ↔ IsSgiTarget env vcpuid value target

variable {env : VgicdEnv} {vcpuid : ℕ} {value : U32} {σ : VgicdState}

def VgicdState.injectSgis (ts : List ℕ) (id : U32) (σ : VgicdState) : VgicdState :=
  { σ with sgis := σ.sgis ++ ts.map (·, id) }

theorem foldl_injectSgi (p : ℕ → Bool) (id : U32) (ts : List ℕ) (σ : VgicdState) :
    ts.foldl (fun σ t => if p t = true then σ.injectSgi t id else σ) σ =
      σ.injectSgis (ts.filter p) id := by
  induction ts generalizing σ with
  | nil =>
      rw [List.foldl_nil, List.filter_nil, VgicdState.injectSgis, List.map_nil, List.append_nil]
  | cons t ts ih =>
      rw [List.foldl_cons, List.filter_cons, ih]
      by_cases hp : p t = true
      · rw [if_pos hp, if_pos hp, VgicdState.injectSgis, VgicdState.injectSgis,
          VgicdState.injectSgi, List.map_cons, List.append_assoc, List.singleton_append]
      · rw [if_neg hp, if_neg hp]

def sgiTargets (env : VgicdEnv) (vcpuid : ℕ) (value : U32) : List ℕ :=
  match sgirFilter value with
  | 0 => (bitsBelow (sgirTargetList value) 32).filter fun target => target < env.numVcpus
  | 1 => (List.range env.numVcpus).filter fun cpuid => cpuid ≠ env.pcpu
  | 2 => [vcpuid]
  | _ => []

theorem handlerSgir_eq (env : VgicdEnv) (vcpuid : ℕ) (value : U32) (σ : VgicdState) :
    handlerSgir env vcpuid value σ =
      σ.injectSgis (sgiTargets env vcpuid value) (sgirId value) := by
  have hlisted := foldl_injectSgi (fun target => decide (target < env.numVcpus)) (sgirId value)
    (bitsBelow (sgirTargetList value) 32) σ
  have hothers := foldl_injectSgi (fun cpuid => decide (cpuid ≠ env.pcpu)) (sgirId value)
    (List.range env.numVcpus) σ
  simp only [decide_eq_true_eq] at hlisted
  simp only [decide_eq_true_eq, ite_not] at hothers
  rw [handlerSgir, sgiTargets, ← sgirFilter]
  rcases sgirFilter value with _ | _ | _ | n
  · exact (scan_eq _ _ σ).trans hlisted
  · exact hothers
  · rfl
  · exact congrArg (fun sgis => { σ with sgis := sgis }) (List.append_nil _).symm

theorem nodup_sgiTargets (env : VgicdEnv) (vcpuid : ℕ) (value : U32) :
    (sgiTargets env vcpuid value).Nodup := by
  rw [sgiTargets]
  split
  · refine List.Nodup.filter _ ?_
    exact (pairwise_bitsBelow _ _).imp fun h => Nat.ne_of_gt h
  · exact List.Nodup.filter _ List.nodup_range
  · exact List.nodup_singleton _
  · exact List.nodup_nil

/-- Only where all others are meant can somebody else be interrupted. -/
theorem mem_sgiTargets_iff (h : sgirFilter value ≠ 1 ∨ env.pcpu = vcpuid) (target : ℕ) :
    target ∈ sgiTargets env vcpuid value ↔ IsSgiTarget env vcpuid value target := by
  have hlist : ∀ i, 32 ≤ i → (sgirTargetList value).getLsbD i = false :=
    fun i hi => BitVec.getLsbD_of_ge _ i hi
  rw [sgiTargets, IsSgiTarget]
  generalize sgirFilter value = f at h ⊢
  rcases f with _ | _ | _ | n
  · simp only [List.mem_filter, mem_bitsBelow, decide_eq_true_eq]
    refine ⟨fun ⟨⟨_, hset⟩, hlt⟩ => ⟨hlt, hset⟩, fun ⟨hlt, hset⟩ => ⟨⟨?_, hset⟩, hlt⟩⟩
    by_contra hge
    rw [hlist target (Nat.le_of_not_lt hge)] at hset
    exact absurd hset (by decide)
  · have hpcpu : env.pcpu = vcpuid := h.resolve_left (not_not.mpr rfl)
    simp only [List.mem_filter, List.mem_range, decide_eq_true_eq, hpcpu]
  · exact List.mem_singleton
  · simp

/-- The loop over the target list ends, for no bit is left after its turns. -/
theorem sgirTargetList_ends (value : U32) : clearHighest^[8] (sgirTargetList value) = 0 := by
  refine iterate_clearHighest fun i hi => ?_
  rw [sgirTargetList, BitVec.getLsbD_setWidth, BitVec.getLsbD_extractLsb']
  simp [Nat.not_lt.mpr hi]

/-- For every machine, whichever of its virtual processors writes on whatever physical processor and
whatever value it writes: the write ends, and the interrupt comes to each of those who are meant
once and to nobody else, exactly if they are not all others or the processor has the writer's
number. -/
theorem deliversSgi_iff (env : VgicdEnv) {vcpuid : ℕ} (hvcpu : vcpuid < env.numVcpus) (value : U32)
    (σ : VgicdState) :
    (clearHighest^[8] (sgirTargetList value) = 0 ∧
      ∃ σ', vgicdWriteHandler env vcpuid GicdReg.sgir.first value σ = .ok σ' ∧
        DeliversSgi env vcpuid value σ σ') ↔
      (sgirFilter value = 1 → env.pcpu = vcpuid) := by
  have hwrite : vgicdWriteHandler env vcpuid GicdReg.sgir.first value σ =
      .ok (σ.injectSgis (sgiTargets env vcpuid value) (sgirId value)) := by
    rw [← handlerSgir_eq]
    rfl
  constructor
  · rintro ⟨-, σ', hσ', -, ts, hts, -, hmem⟩ hfilter
    rw [hwrite] at hσ'
    obtain rfl := Except.ok.inj hσ'
    have hmap := List.append_cancel_left hts
    obtain rfl := List.map_injective_iff.mpr (Prod.mk_left_injective (sgirId value)) hmap
    by_contra hne
    have hself : vcpuid ∈ sgiTargets env vcpuid value := by
      rw [sgiTargets, hfilter]
      simpa [hvcpu] using Ne.symm hne
    have htarget := (hmem vcpuid).mp hself
    rw [IsSgiTarget, hfilter] at htarget
    exact htarget.2 rfl
  · intro h
    refine ⟨sgirTargetList_ends value, _, hwrite, rfl, _, rfl, nodup_sgiTargets ..,
      fun target => ?_⟩
    exact mem_sgiTargets_iff (Decidable.or_iff_not_imp_left.mpr fun hn => h (not_not.mp hn)) target

def secondOnFirst : VgicdEnv where
  itLinesNumber := 1
  numVcpus := 2
  pcpu := 0
  gicdRead _ := 0

def freshVgicdState : VgicdState := .create false 0 default 0 0

theorem deliversSgi_iff_list :
    (clearHighest^[8] (sgirTargetList 0x00030002) = 0 ∧
      ∃ σ', vgicdWriteHandler secondOnFirst 1 GicdReg.sgir.first 0x00030002 freshVgicdState =
          .ok σ' ∧ DeliversSgi secondOnFirst 1 0x00030002 freshVgicdState σ') ↔
      (sgirFilter 0x00030002 = 1 → secondOnFirst.pcpu = 1) :=
  deliversSgi_iff secondOnFirst (by decide) 0x00030002 freshVgicdState

/-- Asked for all others, the handler interrupts the writer and not the other one. -/
theorem sgi_hits_writer :
    (handlerSgir secondOnFirst 1 0x01000002 freshVgicdState).sgis = [(1, 2)] ∧
      IsSgiTarget secondOnFirst 1 0x01000002 0 ∧ ¬ IsSgiTarget secondOnFirst 1 0x01000002 1 ∧
      ¬ ∃ σ', vgicdWriteHandler secondOnFirst 1 GicdReg.sgir.first 0x01000002 freshVgicdState =
          .ok σ' ∧ DeliversSgi secondOnFirst 1 0x01000002 freshVgicdState σ' := by
  have htarget : IsSgiTarget secondOnFirst 1 0x01000002 0 := ⟨by decide, by decide⟩
  have hsgis : (handlerSgir secondOnFirst 1 0x01000002 freshVgicdState).sgis = [(1, 2)] := by
    rw [handlerSgir_eq]
    rfl
  refine ⟨hsgis, htarget, fun hself => hself.2 rfl, ?_⟩
  rintro ⟨σ', hσ', -, ts, hts, -, hmem⟩
  obtain rfl := Except.ok.inj hσ'
  rw [hsgis] at hts
  have hzero : ((0 : ℕ), sgirId 0x01000002) ∈ [((1 : ℕ), (2 : U32))] := by
    rw [hts]
    exact List.mem_append_right _ (List.mem_map.mpr ⟨0, (hmem 0).mpr htarget, rfl⟩)
  exact absurd hzero (by decide)

end KHypervisor
