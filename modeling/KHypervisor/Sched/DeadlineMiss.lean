import KHypervisor.Lib.TimeDemand
import KHypervisor.Sched.RealTimeRuns

/-!
# No deadline miss under the rate-monotonic policy

The virtual processors that are preferred to some `i`, and `i` itself, are a set of tasks that
the policy runs whenever one of them has budget left. If their demand in some time of at most a
period of `i` fits in that time, the budget of `i` is used up at the end of each of its periods,
however the periods of the others lie: `rm_no_deadline_miss`.
-/

namespace KHypervisor

open Scheduler Run TimeDemand

def SchedConf.task (conf : SchedConf) (v : VcpuId) : Task :=
  ⟨(conf.rmPeriodBudget v).1.toNat, (conf.rmPeriodBudget v).2.toNat⟩

def EntryDataRt.job (ed : EntryDataRt) : Job :=
  ⟨ed.budgetCntdn.toNat, ed.period.toNat - ed.periodCntdn.toNat⟩

def queueEntry (s : SchedulerRt) (v : VcpuId) : Option EntryRef :=
  s.sd.runqueue.find? fun i => (s.entry i).vcpuid = v

def jobOf (s : SchedulerRt) (v : VcpuId) : Option Job :=
  (queueEntry s v).map fun i => (s.entry i).ed.job

/-- An entry has the period and the budget of its virtual processor, and counts down from the
period. -/
structure EntryOk (conf : SchedConf) (e : SchedEntry EntryDataRt) : Prop where
  period : e.ed.period = (conf.rmPeriodBudget e.vcpuid).1
  budget : e.ed.budget = (conf.rmPeriodBudget e.vcpuid).2
  cntdn : e.ed.periodCntdn ≤ e.ed.period

/-- A set of virtual processors with budgets that fit in their periods, and among them an idle one
that always has budget and is preferred to no other. -/
structure TaskSet (conf : SchedConf) (T : Finset VcpuId) (idle : VcpuId) : Prop where
  budget_pos : ∀ v ∈ T, 1 ≤ (conf.task v).budget
  budget_le : ∀ v ∈ T, (conf.task v).budget ≤ (conf.task v).period
  period_lt : ∀ v ∈ T, (conf.task v).period < 2 ^ 32 - 1
  idle_mem : idle ∈ T
  idle_budget : (conf.task idle).budget = (conf.task idle).period
  idle_period : ∀ v ∈ T, v ≠ idle → (conf.task v).period < (conf.task idle).period

/-- The virtual processors other than the idle one whose periods are at most that of `i`. -/
def preferred (conf : SchedConf) (T : Finset VcpuId) (idle i : VcpuId) : Finset VcpuId :=
  T.filter fun j => j ≠ idle ∧ (conf.task j).period ≤ (conf.task i).period

/-- Between two ticks the work of the preferred tasks is young, and `i` has missed no deadline. -/
structure RmInv (conf : SchedConf) (T : Finset VcpuId) (idle i : VcpuId) (t : ℕ)
    (tr : SchedTrace EntryDataRt SchedDataRt) : Prop where
  core : CoreInv SchedDataRt.refs tr.s
  nodup : tr.s.sd.runqueue.Nodup
  current : ∀ j ∈ tr.s.sd.current, j ∈ tr.s.sd.runqueue
  entry : ∀ j < tr.s.nrEntries, EntryOk conf (tr.s.entry j)
  tasks : ∀ j ∈ tr.s.sd.runqueue, (tr.s.entry j).vcpuid ∈ T
  attached : ∀ v ∈ tr.attached, ∃ j ∈ tr.s.sd.runqueue, (tr.s.entry j).vcpuid = v
  idle_left : ∀ j ∈ tr.s.sd.runqueue, (tr.s.entry j).vcpuid = idle →
    (tr.s.entry j).ed.periodCntdn ≤ (tr.s.entry j).ed.budgetCntdn
  inTime : InTime conf.task (preferred conf T idle i) t (jobOf tr.s)
  console : i ∉ tr.s.sd.console

theorem queueEntry_some {s : SchedulerRt} {v : VcpuId} {j : EntryRef}
    (h : queueEntry s v = some j) : j ∈ s.sd.runqueue ∧ (s.entry j).vcpuid = v :=
  ⟨List.mem_of_find?_eq_some h, by simpa using List.find?_some h⟩

/-- Two entries of the queue do not belong to the same virtual processor. -/
theorem CoreInv.vcpuid_inj {s : SchedulerRt} (h : CoreInv SchedDataRt.refs s) {j k : EntryRef}
    (hj : j ∈ s.sd.runqueue) (hk : k ∈ s.sd.runqueue)
    (hjk : (s.entry j).vcpuid = (s.entry k).vcpuid) : j = k :=
  h.refs_inj (mem_refs_of_mem_runqueue hj) (mem_refs_of_mem_runqueue hk) hjk

theorem CoreInv.queueEntry {s : SchedulerRt} (h : CoreInv SchedDataRt.refs s) {j : EntryRef}
    (hj : j ∈ s.sd.runqueue) : queueEntry s (s.entry j).vcpuid = some j := by
  cases hfind : KHypervisor.queueEntry s (s.entry j).vcpuid with
  | none =>
      rw [KHypervisor.queueEntry, List.find?_eq_none] at hfind
      exact absurd (hfind j hj) (by simp)
  | some k =>
      obtain ⟨hk, hvcpuid⟩ := queueEntry_some hfind
      rw [h.vcpuid_inj hk hj hvcpuid]

theorem jobOf_congr {s s' : SchedulerRt} (hqueue : s'.sd.runqueue = s.sd.runqueue)
    (hentry : ∀ j ∈ s.sd.runqueue, s'.entry j = s.entry j) : jobOf s' = jobOf s := by
  funext v
  have hfind : queueEntry s' v = queueEntry s v := by
    rw [queueEntry, queueEntry, hqueue]
    exact List.find?_congr fun j hj => by rw [hentry j hj]
  rw [jobOf, jobOf, hfind]
  refine Option.map_congr fun j hj => ?_
  rw [hentry j (queueEntry_some hj).1]

/-- An entry that is added to the queue is found behind those that are in it. -/
theorem queueEntry_append {s s' : SchedulerRt} {k : EntryRef}
    (hqueue : s'.sd.runqueue = s.sd.runqueue ++ [k])
    (hvcpuid : ∀ j, (s'.entry j).vcpuid = (s.entry j).vcpuid) (v : VcpuId) :
    queueEntry s' v =
      (queueEntry s v).or (if (s.entry k).vcpuid = v then some k else none) := by
  rw [queueEntry, queueEntry, hqueue, List.find?_append, List.find?_singleton]
  simp only [hvcpuid, decide_eq_true_eq]

/-! ## Entries and their jobs -/

variable {conf : SchedConf} {e : SchedEntry EntryDataRt}

theorem EntryOk.of_ed (h : EntryOk conf e) {e' : SchedEntry EntryDataRt}
    (hvcpuid : e'.vcpuid = e.vcpuid) (hperiod : e'.ed.period = e.ed.period)
    (hbudget : e'.ed.budget = e.ed.budget) (hcntdn : e'.ed.periodCntdn ≤ e'.ed.period) :
    EntryOk conf e' :=
  ⟨by rw [hperiod, hvcpuid, h.period], by rw [hbudget, hvcpuid, h.budget], hcntdn⟩

theorem EntryDataRt.replenish_job (ed : EntryDataRt) :
    ed.replenish.job = Job.begin ⟨ed.period.toNat, ed.budget.toNat⟩ := by
  rw [job, replenish, Job.begin]
  dsimp only
  rw [Nat.sub_self]

theorem EntryDataRt.check_job (ed : EntryDataRt) :
    ed.check.job = ed.job ∨ ed.check.job = Job.begin ⟨ed.period.toNat, ed.budget.toNat⟩ ∧
      ed.job.elapsed = ed.period.toNat := by
  rw [check]
  by_cases hover : ed.periodCntdn = 0
  · rw [if_pos hover]
    refine Or.inr ⟨ed.replenish_job, ?_⟩
    rw [job, hover]
    exact Nat.sub_zero _
  · rw [if_neg hover]
    exact Or.inl rfl

theorem EntryOk.task (h : EntryOk conf e) :
    (⟨e.ed.period.toNat, e.ed.budget.toNat⟩ : Task) = conf.task e.vcpuid := by
  rw [h.period, h.budget, SchedConf.task]

theorem EntryOk.replenish_job (h : EntryOk conf e) :
    e.ed.replenish.job = Job.begin (conf.task e.vcpuid) := by
  rw [e.ed.replenish_job, h.task]

theorem EntryOk.check_job (h : EntryOk conf e) :
    e.ed.check.job = e.ed.job ∨
      e.ed.check.job = Job.begin (conf.task e.vcpuid) ∧
        e.ed.job.elapsed = (conf.task e.vcpuid).period := by
  rw [← h.task]
  exact e.ed.check_job

theorem EntryOk.period_toNat (h : EntryOk conf e) :
    e.ed.period.toNat = (conf.task e.vcpuid).period := by rw [h.period, SchedConf.task]

theorem EntryOk.check_cntdn (h : EntryOk conf e) (hperiod : 0 < (conf.task e.vcpuid).period) :
    0 < e.ed.check.periodCntdn.toNat ∧ e.ed.check.periodCntdn.toNat ≤ e.ed.period.toNat :=
  e.ed.check_cntdn h.cntdn (by rwa [h.period_toNat])

/-- A call is a tick of the period that the entry is in after the replenishment. -/
theorem EntryDataRt.after_job {ed : EntryDataRt} (hcntdn : ed.periodCntdn ≤ ed.period)
    (hperiod : 0 < ed.period.toNat) {runs : Prop} [Decidable runs]
    (hruns : runs → 0 < ed.check.budgetCntdn) :
    (ed.after runs).job = Job.tick runs ed.check.job := by
  obtain ⟨hpos, hle⟩ := ed.check_cntdn hcntdn hperiod
  have hcount : (ed.after runs).periodCntdn.toNat = ed.check.periodCntdn.toNat - 1 :=
    toNat_sub_one hpos
  have hleft : (ed.after runs).budgetCntdn.toNat =
      if runs then ed.check.budgetCntdn.toNat - 1 else ed.check.budgetCntdn.toNat := by
    rw [EntryDataRt.after]
    by_cases hr : runs
    · rw [if_pos hr, if_pos hr]
      exact toNat_sub_one (BitVec.lt_def.mp (hruns hr))
    · rw [if_neg hr, if_neg hr]
  rw [EntryDataRt.job, Job.tick, EntryDataRt.job, hcount, hleft, EntryDataRt.after_period,
    EntryDataRt.check_period]
  congr 1
  dsimp only
  omega

theorem EntryOk.after_job (h : EntryOk conf e) (hperiod : 0 < (conf.task e.vcpuid).period)
    {runs : Prop} [Decidable runs] (hruns : runs → 0 < e.ed.check.budgetCntdn) :
    (e.ed.after runs).job = Job.tick runs e.ed.check.job :=
  EntryDataRt.after_job h.cntdn (by rwa [h.period_toNat]) hruns

theorem EntryOk.after (h : EntryOk conf e) (hperiod : 0 < (conf.task e.vcpuid).period)
    {e' : SchedEntry EntryDataRt} {runs : Prop} [Decidable runs] (hvcpuid : e'.vcpuid = e.vcpuid)
    (hed : e'.ed = e.ed.after runs) : EntryOk conf e' := by
  obtain ⟨hpos, hle⟩ := h.check_cntdn hperiod
  have hcount : (e.ed.after runs).periodCntdn.toNat = e.ed.check.periodCntdn.toNat - 1 :=
    toNat_sub_one hpos
  refine h.of_ed hvcpuid (by rw [hed, EntryDataRt.after_period])
    (by rw [hed, EntryDataRt.after_budget]) ?_
  rw [hed, EntryDataRt.after_period, BitVec.le_def, hcount]
  omega

/-! ## One step -/

variable {T : Finset VcpuId} {idle i : VcpuId} {t : ℕ} {tr : SchedTrace EntryDataRt SchedDataRt}

theorem RmInv.register (h : RmInv conf T idle i t tr) (v : VcpuId) :
    RmInv conf T idle i t { tr with s := schedVcpuRegister (schedRtRm conf) v tr.s } := by
  have hsame : ∀ j ∈ tr.s.sd.runqueue,
      (schedVcpuRegister (schedRtRm conf) v tr.s).entry j = tr.s.entry j := fun j hj =>
    schedVcpuRegister_entry_of_lt _ _ _ (h.core.lt_nrEntries (mem_refs_of_mem_runqueue hj))
  refine ⟨h.core.register v, h.nodup, h.current, fun j hj => ?_, fun j hj => ?_, fun w hw => ?_,
    fun j hj => ?_, ?_, h.console⟩
  · by_cases hold : j < tr.s.nrEntries
    · rw [schedVcpuRegister_entry_of_lt _ _ _ hold]
      exact h.entry j hold
    · obtain rfl : j = tr.s.nrEntries :=
        Nat.le_antisymm (Nat.le_of_lt_succ hj) (Nat.le_of_not_lt hold)
      dsimp only
      rw [schedVcpuRegister_entry_self]
      exact ⟨rfl, rfl, Nat.zero_le _⟩
  · rw [hsame j hj]
    exact h.tasks j hj
  · obtain ⟨j, hj, hvcpuid⟩ := h.attached w hw
    exact ⟨j, hj, by rw [hsame j hj, hvcpuid]⟩
  · rw [hsame j hj]
    exact h.idle_left j hj
  · have hjob : jobOf (schedVcpuRegister (schedRtRm conf) v tr.s) = jobOf tr.s :=
      jobOf_congr rfl hsame
    dsimp only
    rw [hjob]
    exact h.inTime

/-- With an attachment a job begins, and the others are as they were. -/
theorem RmInv.attach_inTime (h : RmInv conf T idle i t tr) {v : VcpuId} {k : EntryRef}
    {s' : SchedulerRt} (hfind : findEntry tr.s v = some k) (hattach : RtAttach k tr.s s') :
    InTime conf.task (preferred conf T idle i) t (jobOf s') := by
  obtain ⟨hstandby, hvcpuid⟩ := findEntry_some hfind
  have hk : EntryOk conf (tr.s.entry k) := h.entry k (h.core.standby k hstandby)
  have hentry := queueEntry_append hattach.runqueue hattach.vcpuid
  have hnone : queueEntry tr.s v = none := by
    refine Option.eq_none_iff_forall_ne_some.mpr fun j hj => ?_
    obtain ⟨hmem, hjv⟩ := queueEntry_some hj
    have hfound := h.core.found j (mem_refs_of_mem_runqueue hmem)
    rw [hjv, hfind] at hfound
    exact hattach.not_mem h.core (Option.some_injective _ hfound ▸ hmem)
  refine h.inTime.begin fun w _ => ?_
  by_cases hw : w = v
  · rw [hw, jobOf, jobOf, hentry, hnone, if_pos hvcpuid, Option.none_or, Option.map_some,
      hattach.ed, if_pos rfl, hk.replenish_job, hvcpuid]
    exact .inr ⟨rfl, by simp⟩
  · rw [jobOf, jobOf, hentry, if_neg (by rw [hvcpuid]; exact Ne.symm hw), Option.or_none]
    refine .inl (Option.map_congr fun j hj => ?_)
    rw [hattach.ed_of_mem h.core (queueEntry_some hj).1]

theorem RmInv.attach (htasks : TaskSet conf T idle) (h : RmInv conf T idle i t tr) {v : VcpuId}
    (hv : v ∈ T) {k : EntryRef} {s' : SchedulerRt} (hfind : findEntry tr.s v = some k)
    (hattaches : Attaches (schedRtRm conf) k tr.s s') :
    RmInv conf T idle i t ⟨s', insert v tr.attached⟩ := by
  have hattach : RtAttach k tr.s s' := Attaches.rtAttach (n := .rm) hattaches
  obtain ⟨hstandby, hvcpuid⟩ := findEntry_some hfind
  have hk : EntryOk conf (tr.s.entry k) := h.entry k (h.core.standby k hstandby)
  refine ⟨h.core.attach (schedRtRm_spec conf) hfind hattaches, hattach.nodup h.core h.nodup,
    fun j hj => ?_, fun j hj => ?_, fun j hj => ?_, fun w hw => ?_, fun j hj hidle => ?_,
    h.attach_inTime hfind hattach, ?_⟩
  · rw [hattach.current] at hj
    rw [hattach.runqueue]
    exact List.mem_append_left _ (h.current j hj)
  · rw [hattach.nrEntries] at hj
    by_cases hjk : j = k
    · refine hk.of_ed (by rw [hattach.vcpuid, hjk]) ?_ ?_ ?_
      all_goals rw [hattach.ed, if_pos hjk]
      · rfl
      · rfl
      · exact BitVec.le_refl _
    · have hold := h.entry j hj
      have hed : (s'.entry j).ed = (tr.s.entry j).ed := by rw [hattach.ed, if_neg hjk]
      refine hold.of_ed (hattach.vcpuid j) (by rw [hed]) (by rw [hed]) ?_
      rw [hed]
      exact hold.cntdn
  · rw [hattach.runqueue] at hj
    rw [hattach.vcpuid]
    rcases List.mem_append.mp hj with hj | hj
    · exact h.tasks j hj
    · rw [List.mem_singleton.mp hj, hvcpuid]
      exact hv
  · rw [hattach.runqueue]
    rcases Finset.mem_insert.mp hw with rfl | hw
    · exact ⟨k, List.mem_append_right _ (List.mem_singleton_self k),
        by rw [hattach.vcpuid, hvcpuid]⟩
    · obtain ⟨j, hj, hjw⟩ := h.attached w hw
      exact ⟨j, List.mem_append_left _ hj, by rw [hattach.vcpuid, hjw]⟩
  · rw [hattach.runqueue] at hj
    rw [hattach.vcpuid] at hidle
    rcases List.mem_append.mp hj with hj | hj
    · rw [hattach.ed_of_mem h.core hj]
      exact h.idle_left j hj hidle
    · rw [List.mem_singleton.mp hj] at hidle ⊢
      rw [hattach.ed, if_pos rfl]
      have hbudget := htasks.idle_budget
      rw [← hidle, SchedConf.task, ← hk.period, ← hk.budget] at hbudget
      exact BitVec.le_def.mpr hbudget.ge
  · rw [hattaches.sd]
    exact h.console

theorem RmInv.idle_budget (htasks : TaskSet conf T idle) (h : RmInv conf T idle i t tr)
    {j : EntryRef} (hj : j ∈ tr.s.sd.runqueue) (hidle : (tr.s.entry j).vcpuid = idle) :
    (tr.s.entry j).ed.check.periodCntdn ≤ (tr.s.entry j).ed.check.budgetCntdn := by
  have hentry := h.entry j (h.core.lt_nrEntries (mem_refs_of_mem_runqueue hj))
  rw [EntryDataRt.check]
  by_cases hover : (tr.s.entry j).ed.periodCntdn = 0
  · rw [if_pos hover]
    have hbudget := htasks.idle_budget
    rw [← hidle, SchedConf.task, ← hentry.period, ← hentry.budget] at hbudget
    exact BitVec.le_def.mpr hbudget.ge
  · rw [if_neg hover]
    exact h.idle_left j hj hidle

theorem RmInv.exists_call (htasks : TaskSet conf T idle) (h : RmInv conf T idle i t tr)
    (hidle : idle ∈ tr.attached) (now expiration : U64) :
    ∃ s' expiration' x, schedRmDoSchedule now expiration tr.s =
      some (s', (tr.s.entry x).vcpuid, expiration') ∧ RmCall tr.s s' x := by
  obtain ⟨j, hj, hvcpuid⟩ := h.attached idle hidle
  have hentry := h.entry j (h.core.lt_nrEntries (mem_refs_of_mem_runqueue hj))
  have hmem := htasks.idle_mem
  have hpos := (htasks.budget_pos idle hmem).trans (htasks.budget_le idle hmem)
  have hlt := htasks.period_lt idle hmem
  rw [← hvcpuid] at hpos hlt
  refine schedRmDoSchedule_spec h.nodup h.current ⟨j, hj, ?_, ?_⟩ now expiration
  · have hleft := BitVec.le_def.mp (h.idle_budget htasks hj hvcpuid)
    exact BitVec.lt_def.mpr (lt_of_lt_of_le (hentry.check_cntdn hpos).1 hleft)
  · rw [BitVec.lt_def, hentry.period_toNat]
    exact hlt

/-- The period that a virtual processor is in after the replenishment of a call. -/
def checkedJob (s : SchedulerRt) (v : VcpuId) : Option Job :=
  (queueEntry s v).map fun j => (s.entry j).ed.check.job

theorem RmInv.entryOk (h : RmInv conf T idle i t tr) {j : EntryRef}
    (hj : j ∈ tr.s.sd.runqueue) : EntryOk conf (tr.s.entry j) :=
  h.entry j (h.core.lt_nrEntries (mem_refs_of_mem_runqueue hj))

theorem TaskSet.period_pos (htasks : TaskSet conf T idle) {v : VcpuId} (hv : v ∈ T) :
    0 < (conf.task v).period :=
  (htasks.budget_pos v hv).trans (htasks.budget_le v hv)

theorem RmInv.inTime_checked (h : RmInv conf T idle i t tr) :
    InTime conf.task (preferred conf T idle i) t (checkedJob tr.s) := by
  refine h.inTime.begin fun v _ => ?_
  rw [checkedJob, jobOf]
  cases hentry : queueEntry tr.s v with
  | none => exact .inl rfl
  | some j =>
      obtain ⟨hj, rfl⟩ := queueEntry_some hentry
      rw [Option.map_some, Option.map_some]
      rcases (h.entryOk hj).check_job with hsame | ⟨hbegin, hover⟩
      · exact .inl (congrArg some hsame)
      · refine .inr ⟨congrArg some hbegin, fun J hJ => ?_⟩
        rw [← Option.mem_some.mp hJ, hover]

/-- A call is a tick in which the virtual processor of the entry that runs has run. -/
theorem RmInv.jobOf_call (htasks : TaskSet conf T idle) (h : RmInv conf T idle i t tr)
    {s' : SchedulerRt} {x : EntryRef} (hcall : RmCall tr.s s' x) (v : VcpuId) :
    jobOf s' v = (checkedJob tr.s v).map (Job.tick (v = (tr.s.entry x).vcpuid)) := by
  have hentry : queueEntry s' v = queueEntry tr.s v := by
    rw [queueEntry, queueEntry, hcall.runqueue]
    exact List.find?_congr fun j _ => by rw [hcall.vcpuid]
  rw [jobOf, checkedJob, hentry, Option.map_map]
  refine Option.map_congr fun j hj => ?_
  obtain ⟨hmem, hvcpuid⟩ := queueEntry_some hj
  have hruns : j = x → 0 < (tr.s.entry j).ed.check.budgetCntdn := fun hjx => hjx ▸ hcall.runs.budget
  have hiff : j = x ↔ v = (tr.s.entry x).vcpuid := by
    rw [← hvcpuid]
    exact ⟨fun hjx => by rw [hjx], h.core.vcpuid_inj hmem hcall.runs.mem⟩
  rw [hcall.ed, if_pos hmem,
    (h.entryOk hmem).after_job (htasks.period_pos (h.tasks j hmem)) hruns]
  exact Job.tick_congr hiff _

theorem mem_preferred {v : VcpuId} : v ∈ preferred conf T idle i ↔
    v ∈ T ∧ v ≠ idle ∧ (conf.task v).period ≤ (conf.task i).period :=
  Finset.mem_filter

/-- If a preferred virtual processor has budget left, one that runs is preferred too. -/
theorem RmInv.preferred_runs (htasks : TaskSet conf T idle) (hi : i ∈ T) (hne : i ≠ idle)
    (h : RmInv conf T idle i t tr) {x j : EntryRef} (hx : RunsShortest tr.s x)
    (hj : j ∈ tr.s.sd.runqueue) (hpref : (tr.s.entry j).vcpuid ∈ preferred conf T idle i)
    (hleft : 0 < (tr.s.entry j).ed.check.budgetCntdn) :
    (tr.s.entry x).vcpuid ∈ preferred conf T idle i := by
  have hle := BitVec.le_def.mp (hx.shortest j hj hleft)
  rw [(h.entryOk hx.mem).period_toNat, (h.entryOk hj).period_toNat] at hle
  have hperiod := hle.trans (mem_preferred.mp hpref).2.2
  refine mem_preferred.mpr ⟨h.tasks x hx.mem, fun hidle => ?_, hperiod⟩
  rw [hidle] at hperiod
  exact absurd (htasks.idle_period i hi hne) (Nat.not_lt.mpr hperiod)

theorem RmInv.inTime_call (htasks : TaskSet conf T idle) (hi : i ∈ T) (hne : i ≠ idle)
    (ht : 0 < t) (hdemand : demand conf.task (preferred conf T idle i) t ≤ t)
    (h : RmInv conf T idle i t tr) {s' : SchedulerRt} {x : EntryRef} (hcall : RmCall tr.s s' x) :
    InTime conf.task (preferred conf T idle i) t (jobOf s') := by
  have hjob : jobOf s' = fun v => (checkedJob tr.s v).map (Job.tick (v = (tr.s.entry x).vcpuid)) :=
    funext (h.jobOf_call htasks hcall)
  rw [hjob]
  by_cases hpref : (tr.s.entry x).vcpuid ∈ preferred conf T idle i
  · refine h.inTime_checked.tick hdemand (fun v hv => ?_) hpref
      ⟨(tr.s.entry x).ed.check.job, ?_, BitVec.lt_def.mp hcall.runs.budget⟩
    · exact htasks.period_pos (mem_preferred.mp hv).1
    · rw [checkedJob, h.core.queueEntry hcall.runs.mem]
      exact rfl
  · refine inTime_of_left_eq_zero ht fun v hv J hJ => ?_
    have hother : v ≠ (tr.s.entry x).vcpuid := fun hvx => hpref (hvx ▸ hv)
    obtain ⟨J₀, hJ₀, rfl⟩ := Option.mem_map.mp hJ
    obtain ⟨j, hj, rfl⟩ := Option.mem_map.mp hJ₀
    obtain ⟨hmem, rfl⟩ := queueEntry_some hj
    rw [Job.tick, if_neg hother]
    by_contra hleft
    exact hpref (h.preferred_runs htasks hi hne hcall.runs hmem hv
      (BitVec.lt_def.mpr (Nat.pos_of_ne_zero hleft)))

/-- At the end of its period `i` has no budget left. -/
theorem RmInv.not_missed (hi : i ∈ T) (hne : i ≠ idle) (ht : t ≤ (conf.task i).period)
    (h : RmInv conf T idle i t tr) {j : EntryRef} (hj : j ∈ tr.s.sd.runqueue)
    (hvcpuid : (tr.s.entry j).vcpuid = i) : (tr.s.entry j).ed.missed = false := by
  have hentry := h.entryOk hj
  have hjob : (tr.s.entry j).ed.job ∈ jobOf tr.s i := by
    rw [jobOf, ← hvcpuid, h.core.queueEntry hj]
    exact rfl
  rw [EntryDataRt.missed, decide_eq_false_iff_not]
  rintro ⟨hover, hleft⟩
  have helapsed : t ≤ (tr.s.entry j).ed.job.elapsed := by
    rw [EntryDataRt.job, hover, hentry.period_toNat, hvcpuid]
    exact ht
  have hzero := h.inTime.left_eq_zero (mem_preferred.mpr ⟨hi, hne, le_refl _⟩) hjob helapsed
  exact hleft (BitVec.eq_of_toNat_eq hzero)

theorem RmInv.call (htasks : TaskSet conf T idle) (hi : i ∈ T) (hne : i ≠ idle) (hpos : 0 < t)
    (ht : t ≤ (conf.task i).period)
    (hdemand : demand conf.task (preferred conf T idle i) t ≤ t)
    (h : RmInv conf T idle i t tr) {s' : SchedulerRt} {x : EntryRef} (hcall : RmCall tr.s s' x)
    (hcore : CoreInv SchedDataRt.refs s') : RmInv conf T idle i t { tr with s := s' } := by
  have hvcpuid := hcall.vcpuid
  have hqueue := hcall.runqueue
  refine ⟨hcore, by rw [hqueue]; exact h.nodup, fun j hj => ?_, fun j hj => ?_, fun j hj => ?_,
    fun v hv => ?_, fun j hj hidle => ?_, h.inTime_call htasks hi hne hpos hdemand hcall, ?_⟩
  · rw [hcall.current, Option.mem_some] at hj
    rw [hqueue, ← hj]
    exact hcall.runs.mem
  · rw [hcall.nrEntries] at hj
    have hed := hcall.ed j
    by_cases hmem : j ∈ tr.s.sd.runqueue
    · rw [if_pos hmem] at hed
      exact (h.entry j hj).after (htasks.period_pos (h.tasks j hmem)) (hvcpuid j) hed
    · rw [if_neg hmem] at hed
      refine (h.entry j hj).of_ed (hvcpuid j) (by rw [hed]) (by rw [hed]) ?_
      rw [hed]
      exact (h.entry j hj).cntdn
  · rw [hvcpuid]
    exact h.tasks j (hqueue ▸ hj)
  · obtain ⟨j, hj, hjv⟩ := h.attached v hv
    exact ⟨j, by rw [hqueue]; exact hj, by rw [hvcpuid, hjv]⟩
  · rw [hqueue] at hj
    rw [hvcpuid] at hidle
    have hmem := htasks.period_pos (h.tasks j hj)
    have hle := BitVec.le_def.mp (h.idle_budget htasks hj hidle)
    obtain ⟨hcntdn, -⟩ := (h.entryOk hj).check_cntdn hmem
    rw [hcall.ed, if_pos hj, BitVec.le_def, EntryDataRt.after, EntryDataRt.count]
    dsimp only
    rw [toNat_sub_one hcntdn]
    split
    · rw [toNat_sub_one (lt_of_lt_of_le hcntdn hle)]
      omega
    · omega
  · intro hmissed
    rcases (hcall.console i).mp hmissed with hold | ⟨j, hj, hjv, hmiss⟩
    · exact h.console hold
    · rw [h.not_missed hi hne ht hj hjv] at hmiss
      exact absurd hmiss (by decide)

variable {pcpu : PcpuId} {vmidOf : VcpuId → Option VmId}

/-- The events of a run in which only virtual processors of `T` are attached and none is
detached. -/
def AttachesOnly (T : Finset VcpuId) : SchedEvent → Prop
  | .attach v => v ∈ T
  | .detach .. => False
  | .register _ | .schedule .. => True

instance (T : Finset VcpuId) : (e : SchedEvent) → Decidable (AttachesOnly T e)
  | .attach v => inferInstanceAs (Decidable (v ∈ T))
  | .detach .. => isFalse id
  | .register _ | .schedule .. => isTrue trivial

/-- The event is a call of the policy before the idle virtual processor is attached. -/
def SchedulesWithout (idle : VcpuId) (tr : SchedTrace EntryDataRt SchedDataRt) (e : SchedEvent) :
    Prop :=
  (∃ now expiration, e = .schedule now expiration) ∧ idle ∉ tr.attached

instance (idle : VcpuId) (tr : SchedTrace EntryDataRt SchedDataRt) :
    (e : SchedEvent) → Decidable (SchedulesWithout idle tr e)
  | .schedule now expiration =>
      decidable_of_iff (idle ∉ tr.attached) (by simp [SchedulesWithout])
  | .register _ | .attach _ | .detach .. => isFalse (by simp [SchedulesWithout])

theorem RmInv.step (hpcpu : Succeeds pcpu) (hvcpus : ∀ v ∈ T, (vmidOf v).isSome = true)
    (htasks : TaskSet conf T idle) (hi : i ∈ T) (hne : i ≠ idle) (hpos : 0 < t)
    (ht : t ≤ (conf.task i).period)
    (hdemand : demand conf.task (preferred conf T idle i) t ≤ t)
    (h : RmInv conf T idle i t tr) {e : SchedEvent} (he : AttachesOnly T e)
    (hidle : ¬ SchedulesWithout idle tr e) :
    ∃ tr', schedStep (schedRtRm conf) pcpu vmidOf tr e = some tr' ∧ RmInv conf T idle i t tr' := by
  cases e with
  | register v => exact ⟨_, rfl, h.register v⟩
  | attach v =>
      refine ⟨_, rfl, ?_⟩
      rcases (schedRtRm_spec conf).schedVcpuAttach_cases hpcpu v tr.s with
        ⟨hfail, hs, -⟩ | ⟨hsucc, k, hfind, hattach⟩
      · rw [if_neg hfail, hs]
        exact h
      · rw [if_pos hsucc]
        exact h.attach htasks he hfind hattach
  | detach c v => exact absurd he id
  | schedule now expiration =>
      have hattached : idle ∈ tr.attached :=
        not_not.mp fun hnot => hidle ⟨⟨now, expiration, rfl⟩, hnot⟩
      obtain ⟨s', expiration', x, hcall, hx⟩ := h.exists_call htasks hattached now expiration
      obtain ⟨r, hr⟩ := prepareSwitch_some (s := switchTo (tr.s.entry x).vcpuid s')
        (hvcpus _ (h.tasks x hx.runs.mem))
      have hnext : scheduleNext (schedRtRm conf) vmidOf now expiration tr.s = some r :=
        Option.bind_eq_some_iff.mpr ⟨_, hcall, hr⟩
      have hsame : SameEntries _ r.1 := prepareSwitch_sameEntries hr
      have hx' := hx.congr hsame.entry hsame.sd hsame.nrEntries
      exact ⟨_, by rw [schedStep, hnext, Option.map_some],
        h.call htasks hi hne hpos ht hdemand hx' (h.core.schedule (schedRtRm_spec conf) hnext)⟩

theorem rmInv_start (hpos : 0 < t) (block : SchedulerRt) :
    RmInv conf T idle i t (freshTrace (schedRtRm conf) pcpu block) where
  core := coreInv_freshTrace (schedRtRm_spec conf) pcpu block
  nodup := List.nodup_nil
  current j hj := absurd hj (Option.not_mem_none j)
  entry j hj := absurd hj (Nat.not_lt_zero j)
  tasks _ hj := absurd hj List.not_mem_nil
  attached v hv := absurd hv (Finset.notMem_empty v)
  idle_left _ hj := absurd hj List.not_mem_nil
  inTime := inTime_of_left_eq_zero hpos fun _ _ J hJ => absurd hJ (Option.not_mem_none J)
  console := List.not_mem_nil

/-- Let the virtual processors of `T` be attached to a rate-monotonic scheduler at any times, the
idle one before the first call of the policy, and none of them ever be detached. If the demand of
`i` and of those preferred to it fits in some time of at most a period of `i`, then `i` never
misses a deadline, in no run of any length. -/
theorem rm_no_deadline_miss (conf : SchedConf) {pcpu : PcpuId} (hpcpu : pcpu < 254)
    {vmidOf : VcpuId → Option VmId} (block : SchedulerRt) {T : Finset VcpuId} {idle i : VcpuId}
    (hvcpus : ∀ v ∈ T, (vmidOf v).isSome = true) (htasks : TaskSet conf T idle) (hi : i ∈ T)
    (hne : i ≠ idle)
    (hdemand : ∃ t, 1 ≤ t ∧ t ≤ (conf.task i).period ∧
      demand conf.task (preferred conf T idle i) t ≤ t)
    {es : List SchedEvent} (hes : ∀ e ∈ es, AttachesOnly T e)
    (hidle : ¬ Happened (schedStep (schedRtRm conf) pcpu vmidOf) (SchedulesWithout idle)
      (freshTrace (schedRtRm conf) pcpu block) es) :
    ∃ tr, run (schedStep (schedRtRm conf) pcpu vmidOf) (freshTrace (schedRtRm conf) pcpu block)
      es = some tr ∧ i ∉ tr.s.sd.console := by
  obtain ⟨t, hpos, ht, hfits⟩ := hdemand
  obtain ⟨tr, htr, hinv⟩ := run_total_unless es (rmInv_start hpos block) hidle
    fun u e he hu hfirst => hu.step (succeeds_of_lt hpcpu) hvcpus htasks hi hne hpos ht hfits
      (hes e he) hfirst
  exact ⟨tr, htr, hinv.console⟩

/-- An idle virtual processor 0, and a virtual processor 1 that runs for 2 of 4 ticks. -/
def idleAndOne : SchedConf :=
  { (default : SchedConf) with rmPeriodBudget := fun v => if v = 0 then (10, 10) else (4, 2) }

theorem taskSet_idleAndOne : TaskSet idleAndOne {0, 1} 0 := by
  constructor <;> decide

def attachLate : List SchedEvent :=
  [.register 0, .attach 0, .schedule 0 0, .register 1, .attach 1, .schedule 0 0, .schedule 0 0]

theorem rm_no_deadline_miss_attachLate :
    ∃ tr, run (schedStep (schedRtRm idleAndOne) 0 fun _ => some 0)
      (freshTrace (schedRtRm idleAndOne) 0 default) attachLate = some tr ∧
      1 ∉ tr.s.sd.console := by
  refine rm_no_deadline_miss (T := {0, 1}) idleAndOne (by decide) default
    (fun _ _ => rfl) taskSet_idleAndOne (by decide) (by decide) ?_ ?_ ?_
  · exact ⟨2, by decide, by decide, by decide⟩
  · decide
  · decide

end KHypervisor
