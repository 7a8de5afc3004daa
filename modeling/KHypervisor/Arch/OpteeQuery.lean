import KHypervisor.Arch.OpteeShm

/-!
# The query for the shared memory

`handle_optee_get_shm_config` asks the firmware as long as the base in its static variable is that
of no region, and keeps what it is told. It does not look at the status of the answer: a failed
query leaves a region behind as a successful one does, and the guest is told that all is well.
-/

namespace KHypervisor

open Run

variable {k : ℕ}

structure ShmCall where
  vmid : VmId
  regs : CoreRegs
  smc : SecureWorld

/-- The mediator, the trap frame that the last call left, and the answer of the first query that
succeeded. -/
structure ShmQueryState (k : ℕ) where
  optee : OpteeState k
  regs : CoreRegs
  answered : Option OpteeShm

namespace ShmQueryState

/-- `optee.c` before any call. -/
def init (threads : Fin k → OpteeThread) (mem : PhysMem) (regs : CoreRegs) : ShmQueryState k :=
  ⟨(ShmState.init threads mem).optee, regs, none⟩

def Queries (s : ShmQueryState k) : Prop := s.optee.shm.base = 0xFFFFFFFF

instance (s : ShmQueryState k) : Decidable s.Queries :=
  inferInstanceAs (Decidable (_ = _))

def reply (s : ShmQueryState k) (c : ShmCall) : ArmSmcccRes × PhysMem :=
  c.smc ![c.regs.gpr 0, 0, 0, 0, 0, 0, 0, 0] s.optee.mem

def replyShm (s : ShmQueryState k) (c : ShmCall) : OpteeShm :=
  ⟨(s.reply c).1.a1, (s.reply c).1.a2, (s.reply c).1.a3⟩

/-- A call of `handle_optee_get_shm_config`. There is no result where it does not return. -/
def step (conf : OpteeConf) (s : ShmQueryState k) (c : ShmCall) : Option (ShmQueryState k) :=
  (handleOpteeGetShmConfig conf c.smc c.vmid c.regs s.optee).map fun r =>
    { optee := r.2
      regs := r.1
      answered := s.answered.or
        (if s.Queries ∧ (s.reply c).1.a0 = opteeSmcRetOk then some (s.replyShm c) else none) }

/-- The registers of a machine that is told its slice of the region. -/
structure Told (conf : OpteeConf) (vmid : VmId) (shm : OpteeShm) (regs : CoreRegs) : Prop where
  status : regs.gpr 0 = opteeSmcRetOk
  base : regs.gpr 1 = shm.base + shm.size / conf.nrVms * BitVec.ofNat 32 vmid
  size : regs.gpr 2 = shm.size / conf.nrVms
  cached : regs.gpr 3 = shm.cached

/-- A failed query tells the guest that it failed, maps nothing and leaves the region unset. After a
successful one there are no queries, and every machine is told of its region. -/
structure Lawful (conf : OpteeConf) (s : ShmQueryState k) (c : ShmCall) (t : ShmQueryState k) :
    Prop where
  failed : s.Queries → (s.reply c).1.a0 ≠ opteeSmcRetOk →
    t.regs.gpr 0 ≠ opteeSmcRetOk ∧ t.optee.mem = (s.reply c).2 ∧ t.Queries
  reused : ∀ shm, s.answered = some shm →
    ¬ s.Queries ∧ t.optee.shm = shm ∧ Told conf c.vmid shm t.regs

/-- The call asks the firmware, and that reports an error, or its first success has named the base
of no region, or it names a region that takes forever to map. -/
def Spoils (s : ShmQueryState k) (c : ShmCall) : Prop :=
  s.Queries ∧ ((s.reply c).1.a0 ≠ opteeSmcRetOk ∨
    (∃ shm, s.answered = some shm ∧ shm.base = 0xFFFFFFFF) ∨
    0xFFFFF000 < (s.reply c).1.a2.toNat)

/-! ## One call -/

section Step

variable {conf : OpteeConf} {s t : ShmQueryState k} {c : ShmCall}

theorem opteeAskShm_of_queries (hq : s.Queries) :
    opteeAskShm conf c.smc c.regs s.optee =
      (pagingAddMapping conf.httbr (s.replyShm c).base (s.replyShm c).base mtWritebackRwAlloc
        (s.replyShm c).size (s.reply c).2).map fun mem =>
          ((armSmcccSmc c.smc ![c.regs.gpr 0, 0, 0, 0, 0, 0, 0, 0] c.regs s.optee.mem).1,
            { s.optee with shm := s.replyShm c, mem := mem }) :=
  if_pos hq

theorem opteeAskShm_of_not_queries (hq : ¬ s.Queries) :
    opteeAskShm conf c.smc c.regs s.optee = some (c.regs, s.optee) :=
  if_neg hq

/-- What every call leaves: the region it found or was told, and the status that all is well. -/
theorem step_some (h : step conf s c = some t) :
    t.optee.shm = (if s.Queries then s.replyShm c else s.optee.shm) ∧
      Told conf c.vmid t.optee.shm t.regs := by
  obtain ⟨r, hr, rfl⟩ := Option.map_eq_some_iff.mp h
  obtain ⟨u, hu, hrest⟩ := Option.bind_eq_some_iff.mp hr
  obtain ⟨mem, -, hr'⟩ := Option.bind_eq_some_iff.mp hrest
  obtain rfl := Option.some.inj hr'
  refine ⟨?_, rfl, rfl, rfl, rfl⟩
  by_cases hq : s.Queries
  · rw [opteeAskShm_of_queries hq] at hu
    obtain ⟨mem', -, rfl⟩ := Option.map_eq_some_iff.mp hu
    exact (if_pos hq).symm
  · rw [opteeAskShm_of_not_queries hq] at hu
    rw [if_neg hq, ← Option.some.inj hu]

theorem step_total (hquery : s.Queries → (s.reply c).1.a2.toNat ≤ 0xFFFFF000)
    (hknown : ¬ s.Queries → s.optee.shm.size.toNat ≤ 0xFFFFF000) :
    ∃ t, step conf s c = some t := by
  have hask : ∃ u, opteeAskShm conf c.smc c.regs s.optee = some u ∧
      u.2.shm.size.toNat ≤ 0xFFFFF000 := by
    by_cases hq : s.Queries
    · have hsize : (s.replyShm c).size.toNat ≤ 0xFFFFF000 := hquery hq
      rw [opteeAskShm_of_queries hq, pagingAddMapping, mapLoop_total _ _ _ _ hsize]
      exact ⟨_, rfl, hsize⟩
    · rw [opteeAskShm_of_not_queries hq]
      exact ⟨_, rfl, hknown hq⟩
  obtain ⟨u, hu, hsize⟩ := hask
  rw [step, handleOpteeGetShmConfig, hu]
  simp only [Option.bind_eq_bind, Option.bind_some, pagingAddIpaMapping,
    mapLoop_total _ _ _ _ hsize, Option.map_some]
  exact ⟨_, rfl⟩

/-- A region that takes forever to map is mapped before anything is answered. -/
theorem step_eq_none (hq : s.Queries) (hsize : 0xFFFFF000 < (s.reply c).1.a2.toNat) :
    step conf s c = none := by
  have hsize : 0xFFFFF000 < (s.replyShm c).size.toNat := hsize
  rw [step, handleOpteeGetShmConfig, opteeAskShm_of_queries hq, pagingAddMapping,
    mapLoop_diverges _ hsize _ (Nat.dvd_zero _)]
  rfl

/-- A call that asks the firmware in vain, or again, breaks the law. -/
theorem not_lawful_of_spoils (hspoils : s.Spoils c) (ht : step conf s c = some t) :
    ¬ Lawful conf s c t := by
  intro hlaw
  obtain ⟨hq, hstatus | hagain | hsize⟩ := hspoils
  · exact (hlaw.failed hq hstatus).1 (step_some ht).2.status
  · obtain ⟨shm, hshm, -⟩ := hagain
    exact (hlaw.reused shm hshm).1 hq
  · rw [step_eq_none hq hsize] at ht
    cases ht

end Step

/-! ## Runs -/

section Runs

variable {conf : OpteeConf} {s t : ShmQueryState k} {c : ShmCall}

/-- The region is unset until a query has succeeded, and then the one of its answer. -/
structure Faithful (s : ShmQueryState k) : Prop where
  unset : s.answered = none → s.Queries
  kept : ∀ shm, s.answered = some shm → s.optee.shm = shm
  mappable : ¬ s.Queries → s.optee.shm.size.toNat ≤ 0xFFFFF000

/-- A call that does not spoil a run asks for the first time, with success, if it asks. -/
theorem Faithful.answer_of_not_spoils (hs : s.Faithful) (hspoils : ¬ s.Spoils c)
    (hq : s.Queries) :
    (s.reply c).1.a0 = opteeSmcRetOk ∧ s.answered = none ∧
      (s.reply c).1.a2.toNat ≤ 0xFFFFF000 := by
  simp only [Spoils, not_and, not_or, not_not, Nat.not_lt] at hspoils
  obtain ⟨hok, hfirst, hsize⟩ := hspoils hq
  refine ⟨hok, ?_, hsize⟩
  by_contra hanswered
  obtain ⟨shm, hshm⟩ := Option.ne_none_iff_exists'.mp hanswered
  refine hfirst ⟨shm, hshm, ?_⟩
  rw [← hs.kept shm hshm]
  exact hq

theorem step_answered (ht : step conf s c = some t) :
    t.answered = s.answered.or
      (if s.Queries ∧ (s.reply c).1.a0 = opteeSmcRetOk then some (s.replyShm c) else none) := by
  obtain ⟨r, -, rfl⟩ := Option.map_eq_some_iff.mp ht
  rfl

/-- The region of a faithful state is the one of the answer, as soon as nothing is asked. -/
theorem Faithful.answered_eq (hs : s.Faithful) (hq : ¬ s.Queries) :
    s.answered = some s.optee.shm := by
  obtain ⟨shm, hshm⟩ := Option.ne_none_iff_exists'.mp fun hnone => hq (hs.unset hnone)
  rw [hshm, hs.kept shm hshm]

theorem faithful_of_answered (hanswered : s.answered = some s.optee.shm)
    (hsize : s.optee.shm.size.toNat ≤ 0xFFFFF000) : s.Faithful where
  unset hnone := by
    rw [hanswered] at hnone
    cases hnone
  kept shm hshm := Option.some.inj (hanswered.symm.trans hshm)
  mappable _ := hsize

theorem Faithful.step (hs : s.Faithful) (hspoils : ¬ s.Spoils c)
    (ht : ShmQueryState.step conf s c = some t) : t.Faithful := by
  have hanswered := step_answered ht
  have hshm := (step_some ht).1
  by_cases hq : s.Queries
  · obtain ⟨hok, hnone, hsize⟩ := hs.answer_of_not_spoils hspoils hq
    rw [if_pos ⟨hq, hok⟩, hnone, Option.none_or] at hanswered
    rw [if_pos hq] at hshm
    apply faithful_of_answered
    · rw [hanswered, hshm]
    · rw [hshm]
      exact hsize
  · rw [hs.answered_eq hq, Option.some_or] at hanswered
    rw [if_neg hq] at hshm
    apply faithful_of_answered
    · rw [hanswered, hshm]
    · rw [hshm]
      exact hs.mappable hq

theorem Faithful.lawful (hs : s.Faithful) (hspoils : ¬ s.Spoils c)
    (ht : ShmQueryState.step conf s c = some t) : Lawful conf s c t where
  failed hq hstatus := absurd (hs.answer_of_not_spoils hspoils hq).1 hstatus
  reused shm hshm := by
    have hq : ¬ s.Queries := by
      intro hq
      rw [(hs.answer_of_not_spoils hspoils hq).2.1] at hshm
      cases hshm
    obtain ⟨hkept, htold⟩ := step_some ht
    rw [if_neg hq, hs.kept shm hshm] at hkept
    rw [hkept] at htold
    exact ⟨hq, hkept, htold⟩

/-- The law holds along a run of calls if and only if none asks the firmware in vain, or again. -/
theorem shm_query_law_iff (conf : OpteeConf) (threads : Fin k → OpteeThread) (mem : PhysMem)
    (regs : CoreRegs) (calls : List ShmCall) :
    Follows (step conf) (Lawful conf) (init threads mem regs) calls ↔
      ¬ Happened (step conf) Spoils (init threads mem regs) calls := by
  apply follows_iff_unless (I := Faithful)
  · refine ⟨fun _ => rfl, ?_, fun hq => absurd rfl hq⟩
    intro shm h
    cases h
  · intro u c _ hu hspoils
    obtain ⟨v, hv⟩ : ∃ v, step conf u c = some v :=
      step_total (fun hq => (hu.answer_of_not_spoils hspoils hq).2.2) hu.mappable
    exact ⟨v, hv, hu.lawful hspoils hv, hu.step hspoils hv⟩
  · intro u c _ v _ hspoils hv
    exact not_lawful_of_spoils hspoils hv

def failingFirmware : SecureWorld := fun _ mem => (⟨opteeSmcRetUnknownFunc, 0, 0, 0⟩, mem)

/-- The error does not reach the guest. -/
theorem failed_query_reported_ok :
    ¬ ∀ (conf : OpteeConf) (mem : PhysMem) (calls : List ShmCall),
      Follows (step conf) (Lawful conf) (init (fun _ : Fin 0 => ⟨0, false, 0⟩) mem default)
        calls := by
  intro h
  obtain ⟨t, ht, hlaw, -⟩ := h ⟨2, 0, fun _ => 0⟩ ⟨fun _ => 0, []⟩ [⟨0, default, failingFirmware⟩]
  refine not_lawful_of_spoils ?_ ht hlaw
  exact ⟨rfl, .inl (by decide)⟩

end Runs

end ShmQueryState

end KHypervisor
