import KHypervisor.Sched.Policy
import KHypervisor.Sched.RealTimeCall

/-!
# Runs of the real-time policies

What one step of a scheduler with a real-time policy can do is one of `RtStep`. In every run the
entries in the queue are those of the virtual processors that are attached (`QueueInv`); where the
budgets fit in the periods, the countdowns stay between zero and what they began at (`RtInv`).
-/

namespace KHypervisor

open Scheduler Run

inductive RtName
  | rm
  | edf

def RtName.key : RtName → EntryDataRt → U32
  | .rm => EntryDataRt.period
  | .edf => EntryDataRt.periodCntdn

def RtName.policy (conf : SchedConf) : RtName → SchedPolicy EntryDataRt SchedDataRt
  | .rm => schedRtRm conf
  | .edf => schedRtEdf conf

def RtName.periodBudget (conf : SchedConf) : RtName → VcpuId → U32 × U32
  | .rm => conf.rmPeriodBudget
  | .edf => conf.edfPeriodBudget

theorem RtName.policy_attachVcpu (conf : SchedConf) (n : RtName) :
    (n.policy conf).attachVcpu = rtVcpuAttach := by
  cases n <;> rfl

theorem RtName.policy_detachVcpu (conf : SchedConf) (n : RtName) :
    (n.policy conf).detachVcpu = rtVcpuDetach := by
  cases n <;> rfl

theorem RtName.policy_registerVcpu (conf : SchedConf) (n : RtName) :
    (n.policy conf).registerVcpu = rtVcpuRegister (n.periodBudget conf) := by
  cases n <;> rfl

theorem RtName.policy_doSchedule (conf : SchedConf) (n : RtName) :
    (n.policy conf).doSchedule = rtDoSchedule n.key := by
  cases n <;> rfl

theorem RtName.spec (conf : SchedConf) (n : RtName) :
    PolicySpec (n.policy conf) SchedDataRt.refs := by
  cases n with
  | rm => exact schedRtRm_spec conf
  | edf => exact schedRtEdf_spec conf

def returned {ED SD : Type} (policy : SchedPolicy ED SD) (t : SchedTrace ED SD) :
    SchedEvent → Option VcpuId
  | .schedule now expiration => (policy.doSchedule now expiration t.s).map fun r => r.2.1
  | .register _ | .attach _ | .detach .. => none

def IsDetach : SchedEvent → Prop
  | .detach .. => True
  | .register _ | .attach _ | .schedule .. => False

instance decidableIsDetach : (e : SchedEvent) → Decidable (IsDetach e)
  | .detach .. => isTrue trivial
  | .register _ | .attach _ | .schedule .. => isFalse id

/-! ## Steps -/

/-- From `s` to `s'` entry `k` has been attached. -/
structure RtAttach (k : EntryRef) (s s' : SchedulerRt) : Prop where
  detached : (s.entry k).state = .detached
  vcpuid : ∀ j, (s'.entry j).vcpuid = (s.entry j).vcpuid
  state : ∀ j, (s'.entry j).state = if j = k then .waiting else (s.entry j).state
  ed : ∀ j, (s'.entry j).ed = if j = k then (s.entry k).ed.replenish else (s.entry j).ed
  standby : s'.standbyEntries = s.standbyEntries
  nrEntries : s'.nrEntries = s.nrEntries
  current : s'.sd.current = s.sd.current
  runqueue : s'.sd.runqueue = s.sd.runqueue ++ [k]

/-- From `s` to `s'` entry `k` has been detached. -/
structure RtDetach (k : EntryRef) (s s' : SchedulerRt) : Prop where
  entry : s'.entry = s.entry
  standby : s'.standbyEntries = s.standbyEntries
  nrEntries : s'.nrEntries = s.nrEntries
  current : s'.sd.current = s.sd.current
  runqueue : s'.sd.runqueue = s.sd.runqueue.erase k

/-- The steps of a scheduler with a real-time policy. -/
inductive RtStep (conf : SchedConf) (n : RtName) (pcpu : PcpuId)
    (tr : SchedTrace EntryDataRt SchedDataRt) :
    SchedEvent → SchedTrace EntryDataRt SchedDataRt → Prop
  | register (v : VcpuId) :
      RtStep conf n pcpu tr (.register v) { tr with s := schedVcpuRegister (n.policy conf) v tr.s }
  | refused (v : VcpuId) (h : ¬ Succeeds (schedVcpuAttach (n.policy conf) v pcpu tr.s).2) :
      RtStep conf n pcpu tr (.attach v) tr
  | attach (v : VcpuId) (k : EntryRef) (s' : SchedulerRt) (hfind : findEntry tr.s v = some k)
      (h : RtAttach k tr.s s') : RtStep conf n pcpu tr (.attach v) ⟨s', insert v tr.attached⟩
  | detach (c : Option VcpuId) (v : VcpuId) (k : EntryRef) (s' : SchedulerRt)
      (hfind : findEntry tr.s v = some k) (h : RtDetach k tr.s s') :
      RtStep conf n pcpu tr (.detach c v) ⟨s', tr.attached.erase v⟩
  | schedule (now expiration : U64) (p x : EntryRef) (s' : SchedulerRt)
      (h : RtCall n.key tr.s s' p x)
      (hreturned : returned (n.policy conf) tr (.schedule now expiration) =
        some (tr.s.entry x).vcpuid) :
      RtStep conf n pcpu tr (.schedule now expiration) { tr with s := s' }

variable {conf : SchedConf} {n : RtName} {pcpu : PcpuId} {vmidOf : VcpuId → Option VmId}
  {tr tr' : SchedTrace EntryDataRt SchedDataRt} {e : SchedEvent}

theorem Attaches.rtAttach {k : EntryRef} {s s' : SchedulerRt}
    (h : Attaches (n.policy conf) k s s') : RtAttach k s s' := by
  have hsd : s'.sd = { s.sd with runqueue := s.sd.runqueue ++ [k] } := by
    rw [h.sd, n.policy_attachVcpu]
    rfl
  refine ⟨h.detached, h.vcpuid, h.state, fun j => ?_, h.standby, h.nrEntries, by rw [hsd],
    by rw [hsd]⟩
  rw [h.ed, n.policy_attachVcpu, rtVcpuAttach, setSd_entry, setEd_ed, setState_ed, setState_ed]

theorem rtStep_of_schedStep (hpcpu : Succeeds pcpu) (hnodup : tr.s.sd.runqueue.Nodup)
    (h : schedStep (n.policy conf) pcpu vmidOf tr e = some tr') : RtStep conf n pcpu tr e tr' := by
  cases e with
  | register v =>
      obtain rfl := Option.some.inj h
      exact .register v
  | attach v =>
      obtain rfl := Option.some.inj h
      rcases (n.spec conf).schedVcpuAttach_cases hpcpu v tr.s with
        ⟨hfail, hs, -⟩ | ⟨hsucc, k, hfind, hattach⟩
      · rw [hs, if_neg hfail]
        exact .refused v hfail
      · rw [if_pos hsucc]
        exact .attach v k _ hfind hattach.rtAttach
  | detach c v =>
      obtain ⟨s', hs, rfl⟩ := Option.map_eq_some_iff.mp h
      obtain ⟨k, hfind, hentry, hsd, hstandby, -, hnr⟩ := (n.spec conf).schedVcpuDetach_eq_some hs
      rw [n.policy_detachVcpu] at hentry hsd
      exact .detach c v k s' hfind ⟨hentry, hstandby, hnr, by rw [hsd]; rfl, by rw [hsd]; rfl⟩
  | schedule now expiration =>
      obtain ⟨r, hr, rfl⟩ := Option.map_eq_some_iff.mp h
      obtain ⟨⟨s', v, expiration'⟩, hcall, hsame⟩ := scheduleNext_eq_some hr
      have hreturned : returned (n.policy conf) tr (.schedule now expiration) = some v := by
        rw [returned, hcall, Option.map_some]
      rw [n.policy_doSchedule] at hcall
      obtain ⟨p, x, hrt, rfl⟩ := rtDoSchedule_call hnodup hcall
      exact .schedule now expiration p x r.1 (hrt.congr hsame) hreturned

/-! ## The queue -/

/-- The queue has the entries of the virtual processors that are attached, each once. -/
structure QueueInv (tr : SchedTrace EntryDataRt SchedDataRt) : Prop where
  core : CoreInv SchedDataRt.refs tr.s
  nodup : tr.s.sd.runqueue.Nodup
  attached : ∀ v, v ∈ tr.attached ↔ ∃ j ∈ tr.s.sd.runqueue, (tr.s.entry j).vcpuid = v

theorem mem_refs_of_mem_runqueue {sd : SchedDataRt} {j : EntryRef} (h : j ∈ sd.runqueue) :
    j ∈ sd.refs :=
  List.mem_append_right _ h

theorem mem_refs_of_mem_current {sd : SchedDataRt} {j : EntryRef} (h : j ∈ sd.current) :
    j ∈ sd.refs :=
  List.mem_append_left _ (Option.mem_toList.mpr h)

theorem RtCall.mem_refs {key : EntryDataRt → U32} {s s' : SchedulerRt} {p x : EntryRef}
    (h : RtCall key s s' p x) : x ∈ s.sd.refs := by
  rcases h.chosen with ⟨rfl, -⟩ | ⟨hx, -⟩
  · exact mem_refs_of_mem_runqueue (Scan.mem_of_scan_eq_some h.preferred)
  · exact mem_refs_of_mem_current hx

theorem RtCall.mem_runqueue {key : EntryDataRt → U32} {s s' : SchedulerRt} {p x : EntryRef}
    (h : RtCall key s s' p x) (hcurrent : ∀ c ∈ s.sd.current, c ∈ s.sd.runqueue) :
    x ∈ s.sd.runqueue := by
  rcases h.chosen with ⟨rfl, -⟩ | ⟨hx, -⟩
  · exact Scan.mem_of_scan_eq_some h.preferred
  · exact hcurrent x hx

/-- Two entries that the policy knows of do not belong to the same virtual processor. -/
theorem CoreInv.refs_inj {s : SchedulerRt} (h : CoreInv SchedDataRt.refs s) {j k : EntryRef}
    (hj : j ∈ s.sd.refs) (hk : k ∈ s.sd.refs) (hjk : (s.entry j).vcpuid = (s.entry k).vcpuid) :
    j = k := by
  have hfound := h.found j hj
  rw [hjk, h.found k hk] at hfound
  exact (Option.some.inj hfound).symm

theorem CoreInv.not_mem_of_detached {s : SchedulerRt} (h : CoreInv SchedDataRt.refs s)
    {k : EntryRef} (hk : (s.entry k).state = .detached) : k ∉ s.sd.refs :=
  fun hmem => h.state k hmem hk

section

variable {s s' : SchedulerRt} {k : EntryRef}

theorem RtAttach.not_mem (h : RtAttach k s s') (hcore : CoreInv SchedDataRt.refs s) :
    k ∉ s.sd.runqueue :=
  fun hk => hcore.not_mem_of_detached h.detached (mem_refs_of_mem_runqueue hk)

theorem RtAttach.nodup (h : RtAttach k s s') (hcore : CoreInv SchedDataRt.refs s)
    (hnodup : s.sd.runqueue.Nodup) : s'.sd.runqueue.Nodup := by
  rw [h.runqueue, List.nodup_append]
  refine ⟨hnodup, List.nodup_singleton k, fun j hj l hl hjl => ?_⟩
  rw [List.mem_singleton.mp hl] at hjl
  exact h.not_mem hcore (hjl ▸ hj)

theorem RtAttach.ed_of_mem (h : RtAttach k s s') (hcore : CoreInv SchedDataRt.refs s)
    {j : EntryRef} (hj : j ∈ s.sd.runqueue) : (s'.entry j).ed = (s.entry j).ed := by
  have hjk : j ≠ k := by
    rintro rfl
    exact h.not_mem hcore hj
  rw [h.ed, if_neg hjk]

end

theorem QueueInv.step (hpcpu : Succeeds pcpu) (h : QueueInv tr)
    (hstep : schedStep (n.policy conf) pcpu vmidOf tr e = some tr') : QueueInv tr' := by
  have hcore := h.core.step (n.spec conf) hpcpu hstep
  cases rtStep_of_schedStep hpcpu h.nodup hstep with
  | register v =>
      refine ⟨hcore, h.nodup, fun w => (h.attached w).trans (exists_congr fun j =>
        and_congr_right fun hj => ?_)⟩
      dsimp only
      rw [schedVcpuRegister_entry_of_lt _ _ _ (h.core.lt_nrEntries (mem_refs_of_mem_runqueue hj))]
  | refused v => exact h
  | attach v k s' hfind hattach =>
      refine ⟨hcore, hattach.nodup h.core h.nodup, fun w => ?_⟩
      · dsimp only
        simp only [Finset.mem_insert, h.attached w, hattach.runqueue, hattach.vcpuid,
          List.mem_append, List.mem_singleton, or_and_right, exists_or, exists_eq_left,
          (findEntry_some hfind).2, @eq_comm _ w v]
        exact or_comm
  | detach c v k s' hfind hdetach =>
      refine ⟨hcore, ?_, fun w => ?_⟩
      · dsimp only
        rw [hdetach.runqueue]
        exact h.nodup.erase k
      · dsimp only
        rw [Finset.mem_erase, h.attached w, hdetach.runqueue, hdetach.entry]
        obtain ⟨-, hv⟩ := findEntry_some hfind
        constructor
        · rintro ⟨hne, j, hj, rfl⟩
          refine ⟨j, (h.nodup.mem_erase_iff).mpr ⟨?_, hj⟩, rfl⟩
          rintro rfl
          exact hne hv
        · rintro ⟨j, hj, rfl⟩
          obtain ⟨hjk, hmem⟩ := (h.nodup.mem_erase_iff).mp hj
          refine ⟨fun heq => hjk ?_, j, hmem, rfl⟩
          have hfound := h.core.found j (mem_refs_of_mem_runqueue hmem)
          rw [heq, hfind] at hfound
          exact (Option.some.inj hfound).symm
  | schedule now expiration p x s' hcall hreturned =>
      refine ⟨hcore, ?_, fun w => ?_⟩
      · dsimp only
        rw [hcall.runqueue]
        exact h.nodup
      · dsimp only
        simp only [hcall.runqueue, hcall.vcpuid]
        exact h.attached w

theorem queueInv_freshTrace (conf : SchedConf) (n : RtName) (pcpu : PcpuId)
    (block : SchedulerRt) : QueueInv (freshTrace (n.policy conf) pcpu block) := by
  have hsd : (freshTrace (n.policy conf) pcpu block).s.sd.runqueue = [] := by
    cases n <;> rfl
  refine ⟨coreInv_freshTrace (n.spec conf) pcpu block, ?_, fun v => iff_of_false ?_ ?_⟩
  · rw [hsd]
    exact List.nodup_nil
  · exact Finset.notMem_empty v
  · rw [hsd]
    rintro ⟨j, hj, -⟩
    exact List.not_mem_nil hj

theorem current_mem_step (hpcpu : Succeeds pcpu) (h : QueueInv tr) (he : ∀ c v, e ≠ .detach c v)
    (hcurrent : ∀ c ∈ tr.s.sd.current, c ∈ tr.s.sd.runqueue)
    (hstep : schedStep (n.policy conf) pcpu vmidOf tr e = some tr') :
    ∀ c ∈ tr'.s.sd.current, c ∈ tr'.s.sd.runqueue := by
  intro c hc
  cases rtStep_of_schedStep hpcpu h.nodup hstep with
  | register v => exact hcurrent c hc
  | refused v => exact hcurrent c hc
  | attach v k s' hfind hattach =>
      rw [hattach.current] at hc
      rw [hattach.runqueue]
      exact List.mem_append_left _ (hcurrent c hc)
  | detach c' v => exact absurd rfl (he c' v)
  | schedule now expiration p x s' hcall =>
      rw [hcall.current, Option.mem_some] at hc
      rw [hcall.runqueue, ← hc]
      exact hcall.mem_runqueue hcurrent

/-! ## The countdowns -/

structure TaskOk (pb : U32 × U32) : Prop where
  budget_pos : 1 ≤ pb.2.toNat
  budget_le : pb.2.toNat ≤ pb.1.toNat
  period_lt : pb.1.toNat < 2 ^ 32 - 1

instance decidableTaskOk (pb : U32 × U32) : Decidable (TaskOk pb) :=
  decidable_of_iff (1 ≤ pb.2.toNat ∧ pb.2.toNat ≤ pb.1.toNat ∧ pb.1.toNat < 2 ^ 32 - 1)
    ⟨fun h => ⟨h.1, h.2.1, h.2.2⟩, fun h => ⟨h.1, h.2, h.3⟩⟩

/-- What is attached has a budget that fits in its period. -/
def AttachesTasks (periodBudget : VcpuId → U32 × U32) : SchedEvent → Prop
  | .attach v => TaskOk (periodBudget v)
  | .register _ | .detach .. | .schedule .. => True

instance decidableAttachesTasks (periodBudget : VcpuId → U32 × U32) :
    (e : SchedEvent) → Decidable (AttachesTasks periodBudget e)
  | .attach v => decidableTaskOk (periodBudget v)
  | .register _ | .detach .. | .schedule .. => isTrue trivial

/-- An entry has a period and a budget of the table, and counts down from them. -/
structure FromTable (pb : U32 × U32) (ed : EntryDataRt) : Prop where
  period : ed.period = pb.1
  budget : ed.budget = pb.2
  cntdn : ed.periodCntdn ≤ ed.period
  left : ed.budgetCntdn ≤ ed.budget

variable {pb : U32 × U32} {ed : EntryDataRt}

theorem TaskOk.period_pos (h : TaskOk pb) : 0 < pb.1.toNat := h.budget_pos.trans h.budget_le

theorem FromTable.period_pos (h : FromTable pb ed) (htask : TaskOk pb) : 0 < ed.period.toNat := by
  rw [h.period]
  exact htask.period_pos

theorem FromTable.replenish (h : FromTable pb ed) : FromTable pb ed.replenish :=
  ⟨h.period, h.budget, BitVec.le_refl _, BitVec.le_refl _⟩

theorem FromTable.check (h : FromTable pb ed) : FromTable pb ed.check := by
  rw [EntryDataRt.check]
  split
  · exact h.replenish
  · exact h

theorem FromTable.check_count (h : FromTable pb ed) (htask : TaskOk pb) :
    FromTable pb ed.check.count := by
  obtain ⟨hpos, hle⟩ := ed.check_cntdn h.cntdn (h.period_pos htask)
  refine ⟨h.check.period, h.check.budget, ?_, h.check.left⟩
  rw [BitVec.le_def, EntryDataRt.count]
  dsimp only
  rw [toNat_sub_one hpos, EntryDataRt.check_period]
  omega

theorem FromTable.spend (h : FromTable pb ed) (hleft : ed.budgetCntdn ≠ 0) :
    FromTable pb { ed with budgetCntdn := ed.budgetCntdn - 1 } := by
  refine ⟨h.period, h.budget, h.cntdn, ?_⟩
  have hle := BitVec.le_def.mp h.left
  rw [BitVec.le_def]
  dsimp only
  rw [toNat_sub_one (BitVec.lt_def.mp ((BitVec.pos_iff_ne_zero _).mpr hleft))]
  omega

/-- The countdowns of the entries are between zero and what they began at, and those that the
policy knows of have budgets that fit in their periods. -/
structure RtInv (periodBudget : VcpuId → U32 × U32) (tr : SchedTrace EntryDataRt SchedDataRt) :
    Prop extends QueueInv tr where
  entry : ∀ j < tr.s.nrEntries,
    FromTable (periodBudget (tr.s.entry j).vcpuid) (tr.s.entry j).ed
  tasks : ∀ j ∈ tr.s.sd.refs, TaskOk (periodBudget (tr.s.entry j).vcpuid)

variable {periodBudget : VcpuId → U32 × U32} {j : EntryRef}

theorem RtInv.fromTable (h : RtInv periodBudget tr) (hj : j ∈ tr.s.sd.refs) :
    FromTable (periodBudget (tr.s.entry j).vcpuid) (tr.s.entry j).ed :=
  h.entry j (h.core.lt_nrEntries hj)

/-- After the replenishment of a call something is left of the period. -/
theorem RtInv.periodCntdn_pos (h : RtInv periodBudget tr) (hj : j ∈ tr.s.sd.refs) :
    0 < (tr.s.entry j).ed.check.periodCntdn.toNat :=
  ((tr.s.entry j).ed.check_cntdn (h.fromTable hj).cntdn
    ((h.fromTable hj).period_pos (h.tasks j hj))).1

theorem RtInv.counted (h : RtInv periodBudget tr) (hj : j < tr.s.nrEntries) :
    FromTable (periodBudget (tr.s.entry j).vcpuid) (rtCounted tr.s j) := by
  rw [rtCounted]
  by_cases hmem : j ∈ tr.s.sd.runqueue
  · rw [if_pos hmem]
    exact (h.entry j hj).check_count (h.tasks j (mem_refs_of_mem_runqueue hmem))
  · rw [if_neg hmem]
    exact h.entry j hj

theorem RtCall.hasLeft {key : EntryDataRt → U32} {s s' : SchedulerRt} {p x : EntryRef}
    (h : RtCall key s s' p x) : HasLeft s x := by
  rcases h.chosen with ⟨rfl, -⟩ | ⟨-, hleft, -⟩
  · have hready : RtReady s x := Scan.ready_of_scan_eq_some h.preferred
    rw [HasLeft, rtCounted, if_pos (Scan.mem_of_scan_eq_some h.preferred)]
    exact (BitVec.pos_iff_ne_zero _).mp hready
  · exact hleft

section Step

variable {s' : SchedulerRt} {attached : Finset VcpuId}

theorem RtInv.register (h : RtInv (n.periodBudget conf) tr) (v : VcpuId)
    (hqueue : QueueInv { tr with s := schedVcpuRegister (n.policy conf) v tr.s }) :
    RtInv (n.periodBudget conf) { tr with s := schedVcpuRegister (n.policy conf) v tr.s } := by
  have hold : ∀ j < tr.s.nrEntries,
      (schedVcpuRegister (n.policy conf) v tr.s).entry j = tr.s.entry j := fun j hj =>
    schedVcpuRegister_entry_of_lt _ _ _ hj
  refine ⟨hqueue, fun j hj => ?_, fun j hj => ?_⟩
  · dsimp only
    rcases Nat.lt_succ_iff_lt_or_eq.mp hj with hlt | rfl
    · rw [hold j hlt]
      exact h.entry j hlt
    · rw [schedVcpuRegister_entry_self, n.policy_registerVcpu]
      exact ⟨rfl, rfl, Nat.zero_le _, Nat.zero_le _⟩
  · dsimp only
    rw [hold j (h.core.lt_nrEntries hj)]
    exact h.tasks j hj

theorem RtInv.attach (h : RtInv periodBudget tr) {v : VcpuId} {k : EntryRef}
    (htask : TaskOk (periodBudget v)) (hfind : findEntry tr.s v = some k)
    (hattach : RtAttach k tr.s s') (hqueue : QueueInv ⟨s', attached⟩) :
    RtInv periodBudget ⟨s', attached⟩ := by
  obtain ⟨hstandby, hvcpuid⟩ := findEntry_some hfind
  refine ⟨hqueue, fun j hj => ?_, fun j hj => ?_⟩
  · dsimp only at hj ⊢
    rw [hattach.nrEntries] at hj
    rw [hattach.vcpuid, hattach.ed]
    by_cases hjk : j = k
    · rw [if_pos hjk, hjk]
      exact (h.entry k (h.core.standby k hstandby)).replenish
    · rw [if_neg hjk]
      exact h.entry j hj
  · dsimp only at hj ⊢
    rw [SchedDataRt.refs, hattach.current, hattach.runqueue, ← List.append_assoc] at hj
    rw [hattach.vcpuid]
    rcases List.mem_append.mp hj with hj | hj
    · exact h.tasks j hj
    · rw [List.mem_singleton.mp hj, hvcpuid]
      exact htask

theorem RtInv.detach (h : RtInv periodBudget tr) {k : EntryRef} (hdetach : RtDetach k tr.s s')
    (hqueue : QueueInv ⟨s', attached⟩) : RtInv periodBudget ⟨s', attached⟩ := by
  refine ⟨hqueue, fun j hj => ?_, fun j hj => ?_⟩
  · dsimp only at hj ⊢
    rw [hdetach.nrEntries] at hj
    rw [hdetach.entry]
    exact h.entry j hj
  · dsimp only at hj ⊢
    rw [SchedDataRt.refs, hdetach.current, hdetach.runqueue] at hj
    rw [hdetach.entry]
    refine h.tasks j ?_
    rcases List.mem_append.mp hj with hj | hj
    · exact List.mem_append_left _ hj
    · exact mem_refs_of_mem_runqueue (List.mem_of_mem_erase hj)

theorem RtInv.schedule (h : RtInv periodBudget tr) {key : EntryDataRt → U32} {p x : EntryRef}
    (hcall : RtCall key tr.s s' p x) (hqueue : QueueInv ⟨s', attached⟩) :
    RtInv periodBudget ⟨s', attached⟩ := by
  refine ⟨hqueue, fun j hj => ?_, fun j hj => ?_⟩
  · dsimp only at hj ⊢
    rw [hcall.nrEntries] at hj
    rw [hcall.vcpuid, hcall.ed]
    by_cases hjx : j = x
    · rw [if_pos hjx]
      exact (h.counted hj).spend (hjx ▸ hcall.hasLeft)
    · rw [if_neg hjx]
      exact h.counted hj
  · dsimp only at hj ⊢
    rw [hcall.vcpuid]
    refine h.tasks j ?_
    rw [SchedDataRt.refs, hcall.current, hcall.runqueue] at hj
    rcases List.mem_append.mp hj with hj | hj
    · rw [List.mem_singleton.mp hj]
      exact hcall.mem_refs
    · exact mem_refs_of_mem_runqueue hj

end Step

theorem RtInv.step (hpcpu : Succeeds pcpu) (h : RtInv (n.periodBudget conf) tr)
    (he : AttachesTasks (n.periodBudget conf) e)
    (hstep : schedStep (n.policy conf) pcpu vmidOf tr e = some tr') :
    RtInv (n.periodBudget conf) tr' := by
  have hqueue := h.toQueueInv.step hpcpu hstep
  cases rtStep_of_schedStep hpcpu h.nodup hstep with
  | register v => exact h.register v hqueue
  | refused v => exact h
  | attach v k s' hfind hattach => exact h.attach he hfind hattach hqueue
  | detach c v k s' hfind hdetach => exact h.detach hdetach hqueue
  | schedule now expiration p x s' hcall => exact h.schedule hcall hqueue

theorem rtInv_freshTrace (periodBudget : VcpuId → U32 × U32) (conf : SchedConf) (n : RtName)
    (pcpu : PcpuId) (block : SchedulerRt) :
    RtInv periodBudget (freshTrace (n.policy conf) pcpu block) := by
  refine ⟨queueInv_freshTrace conf n pcpu block, fun j hj => absurd hj (Nat.not_lt_zero j),
    fun j hj => ?_⟩
  have hrefs : (freshTrace (n.policy conf) pcpu block).s.sd.refs = [] := by
    cases n <;> rfl
  rw [hrefs] at hj
  exact absurd hj List.not_mem_nil

/-- What holds in every state of a run without detachments. -/
structure DispatchInv (periodBudget : VcpuId → U32 × U32)
    (tr : SchedTrace EntryDataRt SchedDataRt) : Prop extends RtInv periodBudget tr where
  current : ∀ c ∈ tr.s.sd.current, c ∈ tr.s.sd.runqueue

theorem DispatchInv.step (hpcpu : Succeeds pcpu) (h : DispatchInv (n.periodBudget conf) tr)
    (he : AttachesTasks (n.periodBudget conf) e) (hkeep : ¬ IsDetach e)
    (hstep : schedStep (n.policy conf) pcpu vmidOf tr e = some tr') :
    DispatchInv (n.periodBudget conf) tr' := by
  refine ⟨h.toRtInv.step hpcpu he hstep,
    current_mem_step hpcpu h.toQueueInv (fun c v hdetach => hkeep ?_) h.current hstep⟩
  rw [hdetach]
  trivial

theorem dispatchInv_freshTrace (periodBudget : VcpuId → U32 × U32) (conf : SchedConf) (n : RtName)
    (pcpu : PcpuId) (block : SchedulerRt) :
    DispatchInv periodBudget (freshTrace (n.policy conf) pcpu block) := by
  refine ⟨rtInv_freshTrace periodBudget conf n pcpu block, fun c hc => ?_⟩
  cases n <;> cases hc

/-! ## Who is preferred -/

/-- The entry that the scan prefers is the first in the queue that no ready entry behind it can
replace. -/
def RtPrevails (key : EntryDataRt → U32) (s : SchedulerRt) (p : EntryRef) : Prop :=
  Scan.Prevails (RtReady s) (rtKey key s) (rtBound s) s.sd.runqueue p

theorem RtInv.key_le (h : RtInv periodBudget tr) (hj : j ∈ tr.s.sd.runqueue) :
    rtKey n.key tr.s j ≤ rtBound tr.s j := by
  have hmem := mem_refs_of_mem_runqueue hj
  have hcheck := (h.fromTable hmem).check
  cases n with
  | rm => rw [rtKey, RtName.key, EntryDataRt.check_period, rtBound]
  | edf =>
      rw [rtKey, RtName.key, rtBound, ← EntryDataRt.check_period]
      exact BitVec.le_def.mp hcheck.cntdn

theorem RtInv.bound_lt (h : RtInv periodBudget tr) (hj : j ∈ tr.s.sd.runqueue) :
    rtBound tr.s j < 2 ^ 32 - 1 := by
  have hmem := mem_refs_of_mem_runqueue hj
  rw [rtBound, (h.fromTable hmem).period]
  exact (h.tasks j hmem).period_lt

theorem RtInv.rtPreferred_eq_some_iff (h : RtInv periodBudget tr) {p : EntryRef} :
    rtPreferred n.key tr.s = some p ↔ RtPrevails n.key tr.s p :=
  Scan.scan_eq_some_iff (fun _ hj _ => h.key_le hj) fun _ hj _ =>
    (h.key_le hj).trans_lt (h.bound_lt hj)

theorem RtInv.rtPreferred_isSome (h : RtInv periodBudget tr) (hj : j ∈ tr.s.sd.runqueue)
    (hready : RtReady tr.s j) : (rtPreferred n.key tr.s).isSome = true := by
  by_contra hnone
  rw [Option.not_isSome_iff_eq_none] at hnone
  exact (Scan.scan_spec (fun _ hi _ => h.key_le (n := n) hi) fun _ hi _ =>
    (h.key_le hi).trans_lt (h.bound_lt hi)).1 hnone j hj hready

theorem RtInv.doSchedule_isSome (h : RtInv periodBudget tr) (hj : j ∈ tr.s.sd.runqueue)
    (hready : RtReady tr.s j) (conf : SchedConf) (n : RtName) (now expiration : U64) :
    ((n.policy conf).doSchedule now expiration tr.s).isSome = true := by
  rw [n.policy_doSchedule]
  exact rtDoSchedule_isSome h.nodup (h.rtPreferred_isSome hj hready) now expiration

end KHypervisor
