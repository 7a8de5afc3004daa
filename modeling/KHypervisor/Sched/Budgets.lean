import KHypervisor.Lib.Blocks
import KHypervisor.Sched.DeadlineMiss

/-!
# Budgets of the real-time policies

Where the budgets fit in the periods, a virtual processor that is attached gets no more calls than
its budget in any of its periods, and no countdown ever passes zero (`rt_budget_isolation`). With
an idle one attached, whose budget is all of its period, every call returns (`rt_idle_suffices`).
-/

namespace KHypervisor

open Scheduler Run TimeDemand

def taskOf (pb : U32 × U32) : Task := ⟨pb.1.toNat, pb.2.toNat⟩

/-- In a call the countdown of the period of every entry in the queue, begun again where it was
over, goes down by one, and that of the budget if the entry is the one that is returned. Nothing
else is counted. The countdowns are numbers here, so none passes zero. -/
def CountsDown (policy : SchedPolicy EntryDataRt SchedDataRt)
    (t : SchedTrace EntryDataRt SchedDataRt) (e : SchedEvent)
    (t' : SchedTrace EntryDataRt SchedDataRt) : Prop :=
  ∀ v ∈ returned policy t e, ∀ j,
    if j ∈ t.s.sd.runqueue then
      (t'.s.entry j).ed.periodCntdn.toNat + 1 = (t.s.entry j).ed.check.periodCntdn.toNat ∧
      ((t'.s.entry j).ed.budgetCntdn.toNat + if (t.s.entry j).vcpuid = v then 1 else 0) =
        (t.s.entry j).ed.check.budgetCntdn.toNat
    else (t'.s.entry j).ed = (t.s.entry j).ed

/-- The countdowns of the periods are between zero and the periods of the table. -/
def CntdnsInRange (periodBudget : VcpuId → U32 × U32) (t : SchedTrace EntryDataRt SchedDataRt) :
    Prop :=
  ∀ j < t.s.nrEntries,
    (t.s.entry j).ed.periodCntdn.toNat ≤ (periodBudget (t.s.entry j).vcpuid).1.toNat

def Loops (policy : SchedPolicy EntryDataRt SchedDataRt) (t : SchedTrace EntryDataRt SchedDataRt)
    (e : SchedEvent) : Prop :=
  ∃ now expiration, e = .schedule now expiration ∧ policy.doSchedule now expiration t.s = none

variable {conf : SchedConf} {n : RtName} {pcpu : PcpuId} {vmidOf : VcpuId → Option VmId}
  {tr tr' : SchedTrace EntryDataRt SchedDataRt} {e : SchedEvent} {i idle : VcpuId}
  {ticks : List VcpuId} {periodBudget : VcpuId → U32 × U32}

theorem FromTable.task {pb : U32 × U32} {ed : EntryDataRt} (h : FromTable pb ed) :
    (⟨ed.period.toNat, ed.budget.toNat⟩ : Task) = taskOf pb := by
  rw [h.period, h.budget, taskOf]

/-! ## One call -/

section

variable {key : EntryDataRt → U32} {s s' : SchedulerRt} {p x j : EntryRef}

theorem RtCall.ed_of_mem (h : RtCall key s s' p x) (hj : j ∈ s.sd.runqueue) :
    (s'.entry j).ed = (s.entry j).ed.after (j = x) := by
  rw [h.ed, rtCounted, if_pos hj, EntryDataRt.after]
  by_cases hjx : j = x
  · rw [if_pos hjx, if_pos hjx]
    rfl
  · rw [if_neg hjx, if_neg hjx]
    rfl

theorem RtCall.ready (h : RtCall key s s' p x) (hx : x ∈ s.sd.runqueue) : RtReady s x := by
  have hleft := h.hasLeft
  rw [HasLeft, rtCounted, if_pos hx] at hleft
  exact (BitVec.pos_iff_ne_zero _).mpr hleft

end

theorem DispatchInv.countsDown_call (h : DispatchInv periodBudget tr)
    {policy : SchedPolicy EntryDataRt SchedDataRt} {key : EntryDataRt → U32} {s' : SchedulerRt}
    {p x : EntryRef} (hcall : RtCall key tr.s s' p x) {now expiration : U64}
    (hreturned : returned policy tr (.schedule now expiration) = some (tr.s.entry x).vcpuid) :
    CountsDown policy tr (.schedule now expiration) { tr with s := s' } := by
  have hx : x ∈ tr.s.sd.runqueue := hcall.mem_runqueue h.current
  intro v hv j
  rw [hreturned, Option.mem_some] at hv
  dsimp only
  by_cases hj : j ∈ tr.s.sd.runqueue
  · rw [if_pos hj, ← hv, hcall.ed_of_mem hj, EntryDataRt.after, EntryDataRt.count]
    dsimp only
    refine ⟨?_, ?_⟩
    · have hpos := h.periodCntdn_pos (mem_refs_of_mem_runqueue hj)
      rw [toNat_sub_one hpos]
      omega
    · by_cases hjx : j = x
      · have hready := BitVec.lt_def.mp (hcall.ready hx)
        rw [if_pos hjx, if_pos (by rw [hjx]), hjx, toNat_sub_one hready]
        omega
      · rw [if_neg hjx, if_neg fun heq => hjx (h.core.vcpuid_inj hj hx heq)]
        rfl
  · have hne : j ≠ x := by
      rintro rfl
      exact hj hx
    rw [if_neg hj, hcall.ed, if_neg hne, rtCounted, if_neg hj]

theorem DispatchInv.countsDown (hpcpu : Succeeds pcpu)
    (h : DispatchInv (n.periodBudget conf) tr) (hkeep : ¬ IsDetach e)
    (hstep : schedStep (n.policy conf) pcpu vmidOf tr e = some tr') :
    CountsDown (n.policy conf) tr e tr' := by
  cases rtStep_of_schedStep hpcpu h.nodup hstep with
  | register v => exact fun w hw => absurd hw (Option.not_mem_none w)
  | refused v => exact fun w hw => absurd hw (Option.not_mem_none w)
  | attach v => exact fun w hw => absurd hw (Option.not_mem_none w)
  | detach c v => exact absurd trivial hkeep
  | schedule now expiration p x s' hcall hreturned => exact h.countsDown_call hcall hreturned

theorem RtInv.cntdnsInRange (h : RtInv periodBudget tr) : CntdnsInRange periodBudget tr := by
  intro j hj
  rw [← (h.entry j hj).period]
  exact BitVec.le_def.mp (h.entry j hj).cntdn

/-! ## The blocks of one virtual processor -/

/-- Virtual processor `i` is attached, and `ticks` are the calls since. -/
structure Budgeted (periodBudget : VcpuId → U32 × U32) (i : VcpuId) (ticks : List VcpuId)
    (tr : SchedTrace EntryDataRt SchedDataRt) : Prop where
  inv : RtInv periodBudget tr
  current : ∀ c ∈ tr.s.sd.current, c ∈ tr.s.sd.runqueue
  served : ∃ x ∈ tr.s.sd.runqueue, (tr.s.entry x).vcpuid = i ∧
    ∃ k, Served (taskOf (periodBudget i)) i ticks (tr.s.entry x).ed.job k

/-- The replenishment of a call begins the next period where one is over. -/
theorem FromTable.served_check {pb : U32 × U32} {ed : EntryDataRt} {k : ℕ}
    (htable : FromTable pb ed) (htask : TaskOk pb) (h : Served (taskOf pb) i ticks ed.job k) :
    ∃ k, Served (taskOf pb) i ticks ed.check.job k ∧
      ed.check.job.elapsed < (taskOf pb).period := by
  obtain ⟨hpos, hle⟩ := ed.check_cntdn htable.cntdn (htable.period_pos htask)
  have hlt : ed.check.job.elapsed < (taskOf pb).period := by
    rw [EntryDataRt.job, EntryDataRt.check_period, taskOf, ← htable.period]
    dsimp only
    omega
  rcases ed.check_job with hsame | ⟨hbegin, hover⟩
  · rw [hsame] at hlt ⊢
    exact ⟨k, h, hlt⟩
  · rw [hbegin, htable.task] at hlt ⊢
    rw [htable.period] at hover
    exact ⟨k + 1, h.begin hover, hlt⟩

theorem Budgeted.step (hpcpu : Succeeds pcpu) (h : Budgeted (n.periodBudget conf) i ticks tr)
    (he : AttachesTasks (n.periodBudget conf) e) (hkeep : ¬ IsDetach e)
    (hstep : schedStep (n.policy conf) pcpu vmidOf tr e = some tr') :
    Budgeted (n.periodBudget conf) i (ticks ++ (returned (n.policy conf) tr e).toList) tr' := by
  have hinv := DispatchInv.step hpcpu ⟨h.inv, h.current⟩ he hkeep hstep
  obtain ⟨x, hx, hvcpuid, k, hserved⟩ := h.served
  refine ⟨hinv.toRtInv, hinv.current, ?_⟩
  cases rtStep_of_schedStep hpcpu h.inv.nodup hstep with
  | register v =>
      rw [returned, Option.toList_none, List.append_nil]
      refine ⟨x, hx, ?_, k, ?_⟩
      all_goals
        dsimp only
        rw [schedVcpuRegister_entry_of_lt _ _ _
          (h.inv.core.lt_nrEntries (mem_refs_of_mem_runqueue hx))]
      · exact hvcpuid
      · exact hserved
  | refused v =>
      rw [returned, Option.toList_none, List.append_nil]
      exact ⟨x, hx, hvcpuid, k, hserved⟩
  | attach v new s' hfind hattach =>
      rw [returned, Option.toList_none, List.append_nil]
      refine ⟨x, ?_, ?_, k, ?_⟩
      · rw [hattach.runqueue]
        exact List.mem_append_left _ hx
      · rw [hattach.vcpuid, hvcpuid]
      · rw [hattach.ed_of_mem h.inv.core hx]
        exact hserved
  | detach c v => exact absurd trivial hkeep
  | schedule now expiration p y s' hcall hreturned =>
      have hmem := mem_refs_of_mem_runqueue hx
      have htable := h.inv.fromTable hmem
      have htask := h.inv.tasks x hmem
      rw [hvcpuid] at htable htask
      obtain ⟨k, hchecked, hlt⟩ := htable.served_check htask hserved
      have hruns : x = y → 0 < (tr.s.entry x).ed.check.budgetCntdn := by
        rintro rfl
        exact hcall.ready hx
      have hiff : x = y ↔ (tr.s.entry y).vcpuid = i := by
        refine ⟨fun hxy => by rw [← hxy, hvcpuid], fun hy => ?_⟩
        exact h.inv.core.refs_inj hmem hcall.mem_refs (by rw [hvcpuid, hy])
      refine ⟨x, ?_, by rw [hcall.vcpuid, hvcpuid], k, ?_⟩
      · rw [hcall.runqueue]
        exact hx
      · rw [hreturned, Option.toList_some, hcall.ed_of_mem hx,
          EntryDataRt.after_job htable.cntdn (htable.period_pos htask) hruns, Job.tick_congr hiff]
        exact hchecked.tick hlt fun hy => BitVec.lt_def.mp (hruns (hiff.mpr hy))

theorem Budgeted.run {es : List SchedEvent} (hpcpu : Succeeds pcpu)
    (h : Budgeted (n.periodBudget conf) i [] tr)
    (htasks : ∀ e ∈ es, AttachesTasks (n.periodBudget conf) e) (hkeep : ∀ e ∈ es, ¬ IsDetach e)
    (hrun : Run.run (schedStep (n.policy conf) pcpu vmidOf) tr es = some tr') :
    Budgeted (n.periodBudget conf) i
      (outputs (schedStep (n.policy conf) pcpu vmidOf) (returned (n.policy conf)) tr es) tr' := by
  induction es using List.reverseRecOn generalizing tr' with
  | nil =>
      rw [run_nil, Option.some.injEq] at hrun
      rw [← hrun]
      exact h
  | append_singleton es e ih =>
      obtain ⟨u, hu, hstep⟩ := run_concat_eq_some _ hrun
      have hold : ∀ e' ∈ es, e' ∈ es ++ [e] := fun e' he' => List.mem_append_left _ he'
      have hnew : e ∈ es ++ [e] := List.mem_append_right _ (List.mem_singleton_self e)
      rw [outputs_concat hu]
      exact (ih (fun e' he' => htasks e' (hold e' he')) (fun e' he' => hkeep e' (hold e' he'))
        hu).step hpcpu (htasks e hnew) (hkeep e hnew) hstep

theorem budgeted_attach (hpcpu : Succeeds pcpu) (h : DispatchInv (n.periodBudget conf) tr)
    (hi : TaskOk (n.periodBudget conf i))
    (hattach : Succeeds (schedVcpuAttach (n.policy conf) i pcpu tr.s).2)
    (hstep : schedStep (n.policy conf) pcpu vmidOf tr (.attach i) = some tr') :
    Budgeted (n.periodBudget conf) i [] tr' := by
  have htasks : AttachesTasks (n.periodBudget conf) (.attach i) := hi
  have hinv := h.step hpcpu htasks id hstep
  refine ⟨hinv.toRtInv, hinv.current, ?_⟩
  cases rtStep_of_schedStep hpcpu h.nodup hstep with
  | refused v hfail => exact absurd hattach hfail
  | attach v new s' hfind hnew =>
      obtain ⟨hstandby, hvcpuid⟩ := findEntry_some hfind
      have htable := h.entry new (h.core.standby new hstandby)
      rw [hvcpuid] at htable
      refine ⟨new, ?_, by rw [hnew.vcpuid, hvcpuid], 0, ?_⟩
      · rw [hnew.runqueue]
        exact List.mem_append_right _ (List.mem_singleton_self new)
      · rw [hnew.ed, if_pos rfl, EntryDataRt.replenish_job, htable.task]
        exact served_begin _ _

/-- For both policies, all tables and every run that attaches only virtual processors with budgets
that fit in their periods and detaches none: no countdown passes zero, those of the periods stay in
their range, and in each block of calls, as long as its period, since its attachment a virtual
processor is returned at most as often as its budget says. -/
theorem rt_budget_isolation (conf : SchedConf) (n : RtName) {pcpu : PcpuId} (hpcpu : pcpu < 254)
    (vmidOf : VcpuId → Option VmId) (block : SchedulerRt) {es : List SchedEvent}
    {t : SchedTrace EntryDataRt SchedDataRt}
    (htasks : ∀ e ∈ es, AttachesTasks (n.periodBudget conf) e) (hkeep : ∀ e ∈ es, ¬ IsDetach e)
    (hrun : run (schedStep (n.policy conf) pcpu vmidOf) (freshTrace (n.policy conf) pcpu block) es =
      some t) :
    Follows (schedStep (n.policy conf) pcpu vmidOf) (CountsDown (n.policy conf))
      (freshTrace (n.policy conf) pcpu block) es ∧
    Always (schedStep (n.policy conf) pcpu vmidOf) (CntdnsInRange (n.periodBudget conf))
      (freshTrace (n.policy conf) pcpu block) es ∧
    ∀ es₁ i es₂ u u', es = es₁ ++ .attach i :: es₂ →
      run (schedStep (n.policy conf) pcpu vmidOf) (freshTrace (n.policy conf) pcpu block) es₁ =
        some u →
      Succeeds (schedVcpuAttach (n.policy conf) i pcpu u.s).2 →
      schedStep (n.policy conf) pcpu vmidOf u (.attach i) = some u' →
      ∀ m, (TimeDemand.block (n.periodBudget conf i).1.toNat m
        (outputs (schedStep (n.policy conf) pcpu vmidOf) (returned (n.policy conf)) u' es₂)).count
          i ≤ (n.periodBudget conf i).2.toNat := by
  have hsucc : Succeeds pcpu := succeeds_of_lt hpcpu
  have hstart := dispatchInv_freshTrace (n.periodBudget conf) conf n pcpu block
  refine ⟨?_, ?_, ?_⟩
  · refine (follows_iff_not_happened (I := DispatchInv (n.periodBudget conf)) hrun hstart
      (fun u e he v hinv _ hstep => ?_) fun _ _ _ _ _ hfalse => hfalse.elim).mpr
      (not_happened_false _ es)
    exact ⟨hinv.countsDown hsucc (hkeep e he) hstep,
      hinv.step hsucc (htasks e he) (hkeep e he) hstep⟩
  · exact always_unless (I := RtInv (n.periodBudget conf)) hstart.toRtInv
      (fun u hinv => hinv.cntdnsInRange) (not_happened_false _ es)
      fun u e he v hinv _ hstep => hinv.step hsucc (htasks e he) hstep
  · rintro es₁ i es₂ u u' rfl hu hattach hu' m
    have hearlier : ∀ e ∈ es₁, e ∈ es₁ ++ .attach i :: es₂ := fun e he =>
      List.mem_append_left _ he
    have hlater : ∀ e ∈ .attach i :: es₂, e ∈ es₁ ++ .attach i :: es₂ := fun e he =>
      List.mem_append_right _ he
    have hinv := run_invariant hu hstart fun u e he v hu hstep =>
      hu.step hsucc (htasks e (hearlier e he)) (hkeep e (hearlier e he)) hstep
    have hfirst := budgeted_attach hsucc hinv
      (htasks _ (hlater _ List.mem_cons_self)) hattach hu'
    have hrest : run (schedStep (n.policy conf) pcpu vmidOf) u' es₂ = some t := by
      rw [run_append, hu, Option.bind_some, run_cons, hu', Option.bind_some] at hrun
      exact hrun
    obtain ⟨x, -, -, k, hserved⟩ := (hfirst.run hsucc
      (fun e he => htasks e (hlater e (List.mem_cons_of_mem _ he)))
      (fun e he => hkeep e (hlater e (List.mem_cons_of_mem _ he))) hrest).served
    exact hserved.count_block_le m

/-- Virtual processor 1 has 2 of 4 calls from its attachment on. -/
theorem rt_budget_isolation_attachLate :
    ∃ u u', run (schedStep (RtName.rm.policy idleAndOne) 0 fun _ => some 0)
        (freshTrace (RtName.rm.policy idleAndOne) 0 default)
        [.register 0, .attach 0, .schedule 0 0, .register 1] = some u ∧
      schedStep (RtName.rm.policy idleAndOne) 0 (fun _ => some 0) u (.attach 1) = some u' ∧
      ∀ m, (TimeDemand.block 4 m
        (outputs (schedStep (RtName.rm.policy idleAndOne) 0 fun _ => some 0)
          (returned (RtName.rm.policy idleAndOne)) u' [.schedule 0 0, .schedule 0 0])).count
            1 ≤ 2 :=
  ⟨_, _, rfl, rfl, (rt_budget_isolation idleAndOne .rm (by decide) (fun _ => some 0) default
    (by decide : ∀ e ∈ attachLate, AttachesTasks (RtName.rm.periodBudget idleAndOne) e)
    (by decide) rfl).2.2 [.register 0, .attach 0, .schedule 0 0, .register 1] 1
    [.schedule 0 0, .schedule 0 0] _ _ rfl rfl (by decide) rfl⟩

/-! ## The idle virtual processor -/

/-- The idle entry never has less of its budget left than of its period. -/
structure IdleInv (periodBudget : VcpuId → U32 × U32) (idle : VcpuId)
    (tr : SchedTrace EntryDataRt SchedDataRt) : Prop extends RtInv periodBudget tr where
  idle_left : ∀ j ∈ tr.s.sd.runqueue, (tr.s.entry j).vcpuid = idle →
    (tr.s.entry j).ed.periodCntdn ≤ (tr.s.entry j).ed.budgetCntdn

/-- The replenishment keeps that so, where the budget is the whole period. -/
theorem FromTable.check_left {pb : U32 × U32} {ed : EntryDataRt} (h : FromTable pb ed)
    (hidle : pb.2 = pb.1) (hleft : ed.periodCntdn ≤ ed.budgetCntdn) :
    ed.check.periodCntdn ≤ ed.check.budgetCntdn := by
  rw [EntryDataRt.check]
  split
  · rw [EntryDataRt.replenish, h.period, h.budget, hidle]
    exact BitVec.le_refl _
  · exact hleft

theorem IdleInv.step (hpcpu : Succeeds pcpu) (h : IdleInv (n.periodBudget conf) idle tr)
    (hidle : (n.periodBudget conf idle).2 = (n.periodBudget conf idle).1)
    (he : AttachesTasks (n.periodBudget conf) e)
    (hstep : schedStep (n.policy conf) pcpu vmidOf tr e = some tr') :
    IdleInv (n.periodBudget conf) idle tr' := by
  refine ⟨h.toRtInv.step hpcpu he hstep, fun j hj hvcpuid => ?_⟩
  cases rtStep_of_schedStep hpcpu h.nodup hstep with
  | register v =>
      dsimp only at hvcpuid ⊢
      rw [schedVcpuRegister_entry_of_lt _ _ _ (h.core.lt_nrEntries (mem_refs_of_mem_runqueue hj))]
        at hvcpuid ⊢
      exact h.idle_left j hj hvcpuid
  | refused v => exact h.idle_left j hj hvcpuid
  | attach v k s' hfind hattach =>
      dsimp only at hj hvcpuid ⊢
      rw [hattach.vcpuid] at hvcpuid
      rw [hattach.runqueue] at hj
      rcases List.mem_append.mp hj with hj | hj
      · rw [hattach.ed_of_mem h.core hj]
        exact h.idle_left j hj hvcpuid
      · rw [List.mem_singleton.mp hj] at hvcpuid ⊢
        have htable := h.entry k (h.core.standby k (findEntry_some hfind).1)
        rw [hvcpuid] at htable
        rw [hattach.ed, if_pos rfl, EntryDataRt.replenish, htable.period, htable.budget, hidle]
        exact BitVec.le_refl _
  | detach c v k s' hfind hdetach =>
      dsimp only at hj hvcpuid ⊢
      rw [hdetach.entry] at hvcpuid ⊢
      rw [hdetach.runqueue] at hj
      exact h.idle_left j (List.mem_of_mem_erase hj) hvcpuid
  | schedule now expiration p x s' hcall =>
      dsimp only at hj hvcpuid ⊢
      rw [hcall.runqueue] at hj
      rw [hcall.vcpuid] at hvcpuid
      have hmem := mem_refs_of_mem_runqueue hj
      have hpos := h.periodCntdn_pos hmem
      have htable := h.fromTable hmem
      rw [hvcpuid] at htable
      have hle := BitVec.le_def.mp (htable.check_left hidle (h.idle_left j hj hvcpuid))
      rw [hcall.ed_of_mem hj, BitVec.le_def, EntryDataRt.after, EntryDataRt.count]
      dsimp only
      rw [toNat_sub_one hpos]
      split
      · rw [toNat_sub_one (lt_of_lt_of_le hpos hle)]
        omega
      · omega

theorem IdleInv.not_loops (h : IdleInv (n.periodBudget conf) idle tr)
    (hidle : (n.periodBudget conf idle).2 = (n.periodBudget conf idle).1)
    (hattached : ¬ SchedulesWithout idle tr e) : ¬ Loops (n.policy conf) tr e := by
  rintro ⟨now, expiration, rfl, hnone⟩
  have hmem : idle ∈ tr.attached := not_not.mp fun hnot => hattached ⟨⟨now, expiration, rfl⟩, hnot⟩
  obtain ⟨j, hj, hvcpuid⟩ := (h.attached idle).mp hmem
  have hrefs := mem_refs_of_mem_runqueue hj
  have hpos := h.periodCntdn_pos hrefs
  have htable := h.fromTable hrefs
  rw [hvcpuid] at htable
  have hle := BitVec.le_def.mp (htable.check_left hidle (h.idle_left j hj hvcpuid))
  have hready : RtReady tr.s j := BitVec.lt_def.mpr (lt_of_lt_of_le hpos hle)
  have hsome := h.doSchedule_isSome hj hready conf n now expiration
  rw [hnone] at hsome
  cases hsome

/-- For both policies and all tables: if every call finds an idle virtual processor attached, whose
budget is all of its period, then in no run of attachments, detachments and calls over virtual
processors with budgets that fit in their periods does a call loop forever or follow a null
pointer. -/
theorem rt_idle_suffices (conf : SchedConf) (n : RtName) {pcpu : PcpuId} (hpcpu : pcpu < 254)
    (vmidOf : VcpuId → Option VmId) (block : SchedulerRt) (idle : VcpuId)
    (hidle : (n.periodBudget conf idle).2 = (n.periodBudget conf idle).1)
    {es : List SchedEvent} (htasks : ∀ e ∈ es, AttachesTasks (n.periodBudget conf) e)
    (hattached : ¬ Happened (schedStep (n.policy conf) pcpu vmidOf) (SchedulesWithout idle)
      (freshTrace (n.policy conf) pcpu block) es) :
    ¬ Happened (schedStep (n.policy conf) pcpu vmidOf) (Loops (n.policy conf))
      (freshTrace (n.policy conf) pcpu block) es := by
  refine not_happened_of_invariant (I := IdleInv (n.periodBudget conf) idle) ?_ hattached
    (fun u e _ hu hwith => hu.not_loops hidle hwith)
    fun u e he v hu _ hstep => hu.step (succeeds_of_lt hpcpu) hidle (htasks e he) hstep
  refine ⟨rtInv_freshTrace _ conf n pcpu block, fun j hj => absurd hj ?_⟩
  have hsd : (freshTrace (n.policy conf) pcpu block).s.sd.runqueue = [] := by
    cases n <;> rfl
  rw [hsd]
  exact List.not_mem_nil

/-- Another virtual processor is attached late and detached. -/
theorem rt_idle_suffices_attachLate :
    ¬ Happened (schedStep (RtName.rm.policy idleAndOne) 0 fun _ => some 0)
      (Loops (RtName.rm.policy idleAndOne)) (freshTrace (RtName.rm.policy idleAndOne) 0 default)
      (attachLate ++ [.detach (some 1) 1, .schedule 0 0]) :=
  rt_idle_suffices idleAndOne .rm (by decide) (fun _ => some 0) default 0 rfl
    (by decide) (by decide)

end KHypervisor
