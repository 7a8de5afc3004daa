import KHypervisor.Sched.Budgets

/-!
# Whom the real-time policies dispatch

The rate-monotonic policy returns a virtual processor with the shortest period of those that have
budget left, and does not switch without need (`rm_dispatch`). The loop of the other policy compares
what is left of the periods with whole periods, so that it can pass over an earlier deadline
(`edf_dispatch_iff`). Both go on with the current entry without a look at the queue, even after it
has been detached (`dispatches_attached_iff`).
-/

namespace KHypervisor

open Scheduler Run

/-- The policy's data of the entry of a virtual processor, after the replenishment of a call. -/
def checkedEd (s : SchedulerRt) (v : VcpuId) : Option EntryDataRt :=
  (findEntry s v).map fun i => (s.entry i).ed.check

/-- A virtual processor is attached and has budget left at a call. -/
def BudgetLeft (tr : SchedTrace EntryDataRt SchedDataRt) (v : VcpuId) : Prop :=
  v ∈ tr.attached ∧ ∃ ed ∈ checkedEd tr.s v, 0 < ed.budgetCntdn

/-- Its number is minimal among those that are attached and have budget left. -/
def LeastLeft (key : EntryDataRt → U32) (tr : SchedTrace EntryDataRt SchedDataRt) (v : VcpuId) :
    Prop :=
  BudgetLeft tr v ∧ ∀ w, BudgetLeft tr w →
    ∀ a ∈ checkedEd tr.s v, ∀ b ∈ checkedEd tr.s w, key a ≤ key b

/-- The event is a call, and somebody who is attached has budget left. -/
def CallsWithBudget (tr : SchedTrace EntryDataRt SchedDataRt) (e : SchedEvent) : Prop :=
  (∃ now expiration, e = .schedule now expiration) ∧ ∃ v, BudgetLeft tr v

/-- The entry is ready, with the least key of those in the queue that are. -/
def LeastReady (key : EntryDataRt → U32) (s : SchedulerRt) (i : EntryRef) : Prop :=
  Scan.Least (RtReady s) (rtKey key s) s.sd.runqueue i

variable {conf : SchedConf} {n : RtName} {pcpu : PcpuId} {vmidOf : VcpuId → Option VmId}
  {tr tr' : SchedTrace EntryDataRt SchedDataRt} {e : SchedEvent} {v w : VcpuId}
  {periodBudget : VcpuId → U32 × U32} {key : EntryDataRt → U32} {i j : EntryRef}

/-! ## Virtual processors and entries -/

theorem QueueInv.checkedEd_of_mem (h : QueueInv tr) (hi : i ∈ tr.s.sd.runqueue) :
    checkedEd tr.s (tr.s.entry i).vcpuid = some (tr.s.entry i).ed.check := by
  rw [checkedEd, h.core.found i (mem_refs_of_mem_runqueue hi), Option.map_some]

theorem QueueInv.budgetLeft_iff (h : QueueInv tr) :
    BudgetLeft tr v ↔ ∃ i ∈ tr.s.sd.runqueue, (tr.s.entry i).vcpuid = v ∧ RtReady tr.s i := by
  rw [BudgetLeft, h.attached]
  constructor
  · rintro ⟨⟨i, hi, rfl⟩, ed, hed, hpos⟩
    rw [h.checkedEd_of_mem hi, Option.mem_some] at hed
    rw [← hed] at hpos
    exact ⟨i, hi, rfl, hpos⟩
  · rintro ⟨i, hi, rfl, hready⟩
    exact ⟨⟨i, hi, rfl⟩, _, h.checkedEd_of_mem hi, hready⟩

theorem QueueInv.leastLeft_iff (h : QueueInv tr) (hi : i ∈ tr.s.sd.runqueue) :
    LeastLeft key tr (tr.s.entry i).vcpuid ↔ LeastReady key tr.s i := by
  constructor
  · rintro ⟨hleft, hle⟩
    obtain ⟨k, hk, hki, hready⟩ := h.budgetLeft_iff.mp hleft
    rw [h.core.vcpuid_inj hk hi hki] at hready
    refine ⟨hi, hready, fun j hj hjready => BitVec.le_def.mp ?_⟩
    exact hle _ (h.budgetLeft_iff.mpr ⟨j, hj, rfl, hjready⟩) _ (h.checkedEd_of_mem hi) _
      (h.checkedEd_of_mem hj)
  · rintro ⟨-, hready, hle⟩
    refine ⟨h.budgetLeft_iff.mpr ⟨i, hi, rfl, hready⟩, fun w hw a ha b hb => ?_⟩
    obtain ⟨j, hj, rfl, hjready⟩ := h.budgetLeft_iff.mp hw
    rw [h.checkedEd_of_mem hi, Option.mem_some] at ha
    rw [h.checkedEd_of_mem hj, Option.mem_some] at hb
    rw [← ha, ← hb]
    exact BitVec.le_def.mpr (hle j hj hjready)

/-! ## The choice of a call -/

theorem hasLeft_iff {s : SchedulerRt} (hi : i ∈ s.sd.runqueue) : HasLeft s i ↔ RtReady s i := by
  rw [HasLeft, rtCounted, if_pos hi]
  exact (BitVec.pos_iff_ne_zero _).symm

theorem RtInv.before_iff (h : RtInv periodBudget tr) (hi : i ∈ tr.s.sd.runqueue)
    (hj : j ∈ tr.s.sd.runqueue) :
    Before n.key tr.s i j ↔ rtKey n.key tr.s i < rtKey n.key tr.s j := by
  rw [Before, rtCounted, rtCounted, if_pos hi, if_pos hj, BitVec.lt_def]
  cases n with
  | rm => exact Iff.rfl
  | edf =>
      have hposi := h.periodCntdn_pos (mem_refs_of_mem_runqueue hi)
      have hposj := h.periodCntdn_pos (mem_refs_of_mem_runqueue hj)
      simp only [RtName.key, rtKey, EntryDataRt.count]
      rw [toNat_sub_one hposi, toNat_sub_one hposj]
      omega

/-- The entry that runs has the least key exactly if the current entry or the one that the loop
prefers has. -/
theorem RtCall.leastReady_iff (h : RtInv periodBudget tr)
    (hcurrent : ∀ c ∈ tr.s.sd.current, c ∈ tr.s.sd.runqueue) {s' : SchedulerRt} {p x : EntryRef}
    (hcall : RtCall n.key tr.s s' p x) :
    LeastReady n.key tr.s x ↔
      (∃ c ∈ tr.s.sd.current, LeastReady n.key tr.s c) ∨ LeastReady n.key tr.s p := by
  have hp : p ∈ tr.s.sd.runqueue := Scan.mem_of_scan_eq_some hcall.preferred
  have hready : RtReady tr.s p := Scan.ready_of_scan_eq_some hcall.preferred
  rcases hcall.chosen with ⟨rfl, hbefore⟩ | ⟨hx, hleft, hnot⟩
  · refine ⟨Or.inr, ?_⟩
    rintro (⟨c, hc, hleast⟩ | hleast)
    · have hlt := hbefore c hc ((hasLeft_iff hleast.mem).mpr hleast.isReady)
      rw [h.before_iff hp hleast.mem] at hlt
      exact absurd (hleast.le x hp hready) (Nat.not_le.mpr hlt)
    · exact hleast
  · have hmem := hcurrent x hx
    refine ⟨fun hleast => Or.inl ⟨x, hx, hleast⟩, ?_⟩
    rintro (⟨c, hc, hleast⟩ | hleast)
    · rw [hx, Option.mem_some] at hc
      rw [hc]
      exact hleast
    · rw [h.before_iff hp hmem, Nat.not_lt] at hnot
      exact ⟨hmem, (hasLeft_iff hmem).mp hleft, fun j hj hjready =>
        hnot.trans (hleast.le j hj hjready)⟩

theorem RtInv.exists_returned (h : RtInv (n.periodBudget conf) tr)
    (he : CallsWithBudget tr e) : ∃ v, returned (n.policy conf) tr e = some v := by
  obtain ⟨⟨now, expiration, rfl⟩, v, hv⟩ := he
  obtain ⟨j, hj, -, hready⟩ := h.toQueueInv.budgetLeft_iff.mp hv
  obtain ⟨r, hr⟩ := Option.isSome_iff_exists.mp
    (h.doSchedule_isSome hj hready conf n now expiration)
  rw [returned, hr]
  exact ⟨_, rfl⟩

/-- Who is returned is the virtual processor of the entry that is chosen. -/
theorem rtCall_of_returned (hnodup : tr.s.sd.runqueue.Nodup)
    (h : returned (n.policy conf) tr e = some v) :
    ∃ s' p x, RtCall n.key tr.s s' p x ∧ v = (tr.s.entry x).vcpuid := by
  cases e with
  | schedule now expiration =>
      rw [returned, n.policy_doSchedule] at h
      obtain ⟨⟨s', v', expiration'⟩, hcall, rfl⟩ := Option.map_eq_some_iff.mp h
      obtain ⟨p, x, hrt, hv⟩ := rtDoSchedule_call hnodup hcall
      exact ⟨s', p, x, hrt, hv⟩
  | register v => cases h
  | attach v => cases h
  | detach c v => cases h

/-- The current entry is the one that the last call has returned. -/
def ReturnedLast (returns : List VcpuId) (s : SchedulerRt) : Prop :=
  returns.getLast? = s.sd.current.map fun c => (s.entry c).vcpuid

theorem ReturnedLast.step (hpcpu : Succeeds pcpu) (h : QueueInv tr) {returns : List VcpuId}
    (hlast : ReturnedLast returns tr.s)
    (hstep : schedStep (n.policy conf) pcpu vmidOf tr e = some tr') :
    ReturnedLast (returns ++ (returned (n.policy conf) tr e).toList) tr'.s := by
  cases rtStep_of_schedStep hpcpu h.nodup hstep with
  | register v =>
      rw [returned, Option.toList_none, List.append_nil, ReturnedLast, hlast]
      refine Option.map_congr fun c hc => ?_
      dsimp only
      rw [schedVcpuRegister_entry_of_lt _ _ _ (h.core.lt_nrEntries (mem_refs_of_mem_current hc))]
  | refused v =>
      rw [returned, Option.toList_none, List.append_nil]
      exact hlast
  | attach v k s' hfind hattach =>
      rw [returned, Option.toList_none, List.append_nil, ReturnedLast, hattach.current, hlast]
      exact Option.map_congr fun c _ => (hattach.vcpuid c).symm
  | detach c v k s' hfind hdetach =>
      rw [returned, Option.toList_none, List.append_nil, ReturnedLast, hdetach.current,
        hdetach.entry, hlast]
  | schedule now expiration p x s' hcall hreturned =>
      rw [hreturned, Option.toList_some, ReturnedLast, List.getLast?_concat, hcall.current,
        Option.map_some, hcall.vcpuid]

/-! ## Rate monotonic -/

/-- The entry that the loop of the rate-monotonic policy prefers has the shortest period of those
with budget left. -/
theorem leastReady_preferred {s : SchedulerRt} (hnodup : s.sd.runqueue.Nodup) {p : EntryRef}
    (hp : rtPreferred EntryDataRt.period s = some p) : LeastReady EntryDataRt.period s p := by
  have hselected := selected_rtScan hnodup
  rw [← rtScan_eq EntryDataRt.period hnodup] at hp
  obtain ⟨hready, hmin⟩ := hselected.next p hp
  refine ⟨(visited_rtScan EntryDataRt.period s).next p hp, hready, fun j hj hjready => ?_⟩
  have hle := BitVec.le_def.mp (hselected.min j hj hjready)
  rw [hmin] at hle
  rw [rtKey, rtKey, EntryDataRt.check_period, EntryDataRt.check_period]
  exact hle

/-- For all tables and every run of attachments and calls over virtual processors with budgets that
fit in their periods: when somebody has budget left, a call returns somebody with the shortest
period of those who have it, and it returns the one that the last call returned again if that is
one of them. -/
theorem rm_dispatch (conf : SchedConf) {pcpu : PcpuId} (hpcpu : pcpu < 254)
    (vmidOf : VcpuId → Option VmId) (block : SchedulerRt) {es : List SchedEvent}
    (htasks : ∀ e ∈ es, AttachesTasks (RtName.rm.periodBudget conf) e)
    (hkeep : ∀ e ∈ es, ¬ IsDetach e)
    (hrun : run (schedStep (RtName.rm.policy conf) pcpu vmidOf)
      (freshTrace (RtName.rm.policy conf) pcpu block) es = some tr)
    (hleft : ∃ v, BudgetLeft tr v) (now expiration : U64) :
    ∃ v, returned (RtName.rm.policy conf) tr (.schedule now expiration) = some v ∧
      LeastLeft EntryDataRt.period tr v ∧
      ∀ w ∈ (outputs (schedStep (RtName.rm.policy conf) pcpu vmidOf)
          (returned (RtName.rm.policy conf)) (freshTrace (RtName.rm.policy conf) pcpu block)
          es).getLast?,
        LeastLeft EntryDataRt.period tr w → v = w := by
  have hsucc : Succeeds pcpu := succeeds_of_lt hpcpu
  have hinv := run_invariant hrun (dispatchInv_freshTrace _ conf .rm pcpu block)
    fun u e he v hu hstep => hu.step hsucc (htasks e he) (hkeep e he) hstep
  have hlast : ReturnedLast (outputs (schedStep (RtName.rm.policy conf) pcpu vmidOf)
      (returned (RtName.rm.policy conf)) (freshTrace (RtName.rm.policy conf) pcpu block) es)
      tr.s := by
    refine (run_induction (I := fun es u => QueueInv u ∧ ReturnedLast
      (outputs (schedStep (RtName.rm.policy conf) pcpu vmidOf) (returned (RtName.rm.policy conf))
        (freshTrace (RtName.rm.policy conf) pcpu block) es) u.s)
      ⟨queueInv_freshTrace conf .rm pcpu block, rfl⟩ ?_ hrun).2
    rintro es e u v hu ⟨hqueue, hlast⟩ hstep
    rw [outputs_concat hu]
    exact ⟨hqueue.step hsucc hstep, hlast.step hsucc hqueue hstep⟩
  obtain ⟨v, hv⟩ := hinv.exists_returned (e := .schedule now expiration)
    ⟨⟨now, expiration, rfl⟩, hleft⟩
  obtain ⟨s', p, x, hcall, rfl⟩ := rtCall_of_returned hinv.nodup hv
  have hp : LeastReady EntryDataRt.period tr.s p :=
    leastReady_preferred hinv.nodup hcall.preferred
  have hx := (hcall.leastReady_iff hinv.toRtInv hinv.current).mpr (Or.inr hp)
  refine ⟨_, hv, (hinv.leastLeft_iff hx.mem).mpr hx, fun w hw hwleast => ?_⟩
  rw [hlast] at hw
  obtain ⟨c, hc, rfl⟩ := Option.mem_map.mp hw
  have hmem := hinv.current c hc
  have hcleast := (hinv.leastLeft_iff hmem).mp hwleast
  rcases hcall.chosen with ⟨rfl, hbefore⟩ | ⟨hcur, -⟩
  · have hlt := hbefore c hc ((hasLeft_iff hmem).mpr hcleast.isReady)
    rw [hinv.before_iff (n := .rm) hx.mem hmem] at hlt
    exact absurd (hcleast.le x hx.mem hx.isReady) (Nat.not_le.mpr hlt)
  · rw [Option.mem_def.mp hc, Option.some.injEq] at hcur
    rw [hcur]

/-- After a run in which virtual processor 1 was attached between two calls. -/
theorem rm_dispatch_attachLate :
    ∃ tr, run (schedStep (RtName.rm.policy idleAndOne) 0 fun _ => some 0)
        (freshTrace (RtName.rm.policy idleAndOne) 0 default) attachLate = some tr ∧
      ∃ v, returned (RtName.rm.policy idleAndOne) tr (.schedule 0 0) = some v ∧
        LeastLeft EntryDataRt.period tr v ∧
        ∀ w ∈ (outputs (schedStep (RtName.rm.policy idleAndOne) 0 fun _ => some 0)
            (returned (RtName.rm.policy idleAndOne))
            (freshTrace (RtName.rm.policy idleAndOne) 0 default) attachLate).getLast?,
          LeastLeft EntryDataRt.period tr w → v = w :=
  ⟨_, rfl, rm_dispatch idleAndOne (by decide) (fun _ => some 0) default (by decide) (by decide) rfl
    ⟨0, by decide, _, rfl, by decide⟩ 0 0⟩

/-! ## Earliest deadline first -/

/-- By the event nobody is returned whose number is minimal among those with budget left, though
there are some. -/
def Misdispatches (key : EntryDataRt → U32) (policy : SchedPolicy EntryDataRt SchedDataRt)
    (tr : SchedTrace EntryDataRt SchedDataRt) (e : SchedEvent) : Prop :=
  CallsWithBudget tr e ∧ ¬ ∃ v ∈ returned policy tr e, LeastLeft key tr v

/-- The current entry has the earliest deadline, or else an entry with the earliest deadline has
behind it in the queue only ready entries with at least as much left of their periods as its whole
period is. -/
def EarliestStands (s : SchedulerRt) : Prop :=
  (∃ c ∈ s.sd.current, LeastReady EntryDataRt.periodCntdn s c) ∨
    ∃ k m, Scan.StandsAt (RtReady s) (rtKey EntryDataRt.periodCntdn s) (rtBound s) s.sd.runqueue
      k m ∧ LeastReady EntryDataRt.periodCntdn s m

/-- The event is a call in a state in which the loop passes over the earliest deadline. -/
def PassesOver (tr : SchedTrace EntryDataRt SchedDataRt) (e : SchedEvent) : Prop :=
  CallsWithBudget tr e ∧ ¬ EarliestStands tr.s

theorem DispatchInv.misdispatches_iff
    (h : DispatchInv (RtName.edf.periodBudget conf) tr) :
    Misdispatches EntryDataRt.periodCntdn (RtName.edf.policy conf) tr e ↔ PassesOver tr e := by
  refine and_congr_right fun he => not_congr ?_
  obtain ⟨v, hv⟩ := h.exists_returned he
  obtain ⟨s', p, x, hcall, hx⟩ := rtCall_of_returned h.nodup hv
  have hprevails := h.rtPreferred_eq_some_iff.mp hcall.preferred
  have hleast : LeastReady EntryDataRt.periodCntdn tr.s x ↔ EarliestStands tr.s :=
    (hcall.leastReady_iff h.toRtInv h.current).trans (or_congr Iff.rfl
      (hprevails.least_iff fun j hj _ => h.key_le (n := .edf) hj))
  rw [← hleast, ← h.leastLeft_iff (hcall.mem_runqueue h.current), ← hx, hv]
  exact ⟨fun ⟨w, hw, hall⟩ => Option.mem_some.mp hw ▸ hall, fun hall => ⟨v, rfl, hall⟩⟩

/-- For all tables and every run of attachments and calls over virtual processors with budgets that
fit in their periods: every call that finds budget left returns somebody with the earliest deadline
of those who have it, exactly if at every such call the current entry has the earliest deadline or
an entry that has it stands in the queue. -/
theorem edf_dispatch_iff (conf : SchedConf) {pcpu : PcpuId} (hpcpu : pcpu < 254)
    (vmidOf : VcpuId → Option VmId) (block : SchedulerRt) {es : List SchedEvent}
    (htasks : ∀ e ∈ es, AttachesTasks (RtName.edf.periodBudget conf) e)
    (hkeep : ∀ e ∈ es, ¬ IsDetach e) :
    ¬ Happened (schedStep (RtName.edf.policy conf) pcpu vmidOf)
        (Misdispatches EntryDataRt.periodCntdn (RtName.edf.policy conf))
        (freshTrace (RtName.edf.policy conf) pcpu block) es ↔
      ¬ Happened (schedStep (RtName.edf.policy conf) pcpu vmidOf) PassesOver
        (freshTrace (RtName.edf.policy conf) pcpu block) es :=
  not_congr (happened_congr (dispatchInv_freshTrace _ conf .edf pcpu block)
    (fun _ _ _ h => h.misdispatches_iff) fun _ e he _ h _ hstep =>
      h.step (succeeds_of_lt hpcpu) (htasks e he) (hkeep e he) hstep)

/-- Three virtual processors that need one half, one sixth and one third of the calls. -/
def threeTasks : SchedConf :=
  { (default : SchedConf) with
    edfPeriodBudget := fun v => if v = 0 then (2, 1) else if v = 1 then (6, 1) else (6, 2) }

/-- The last one is attached first and has run once when the others are attached. -/
def attachLast : List SchedEvent :=
  [.register 0, .register 1, .register 2, .attach 2, .schedule 0 0, .attach 0, .attach 1,
    .schedule 0 0]

theorem edf_dispatch_iff_attachLast :
    ¬ Happened (schedStep (RtName.edf.policy threeTasks) 0 fun _ => some 0)
        (Misdispatches EntryDataRt.periodCntdn (RtName.edf.policy threeTasks))
        (freshTrace (RtName.edf.policy threeTasks) 0 default) attachLast ↔
      ¬ Happened (schedStep (RtName.edf.policy threeTasks) 0 fun _ => some 0) PassesOver
        (freshTrace (RtName.edf.policy threeTasks) 0 default) attachLast :=
  edf_dispatch_iff threeTasks (by decide) (fun _ => some 0) default (by decide) (by decide)

/-- The next call returns virtual processor 1, which has five calls left of its period, though
virtual processor 2 has budget left and four calls. -/
theorem edf_misdispatches :
    ∃ tr, run (schedStep (RtName.edf.policy threeTasks) 0 fun _ => some 0)
        (freshTrace (RtName.edf.policy threeTasks) 0 default) attachLast = some tr ∧
      returned (RtName.edf.policy threeTasks) tr (.schedule 0 0) = some 1 ∧
      checkedEd tr.s 1 = some ⟨6, 1, 5, 1⟩ ∧ checkedEd tr.s 2 = some ⟨6, 2, 4, 1⟩ ∧
      Misdispatches EntryDataRt.periodCntdn (RtName.edf.policy threeTasks) tr (.schedule 0 0) := by
  refine ⟨_, rfl, rfl, rfl, rfl, ⟨⟨0, 0, rfl⟩, 2, by decide, _, rfl, by decide⟩, ?_⟩
  rintro ⟨v, hv, -, hle⟩
  obtain rfl : 1 = v := Option.some.inj hv
  exact absurd (hle 2 ⟨by decide, _, rfl, by decide⟩ ⟨6, 1, 5, 1⟩ rfl ⟨6, 2, 4, 1⟩ rfl) (by decide)

/-! ## After a detachment -/

/-- By the event nobody who is attached is returned, though somebody who is has budget left. -/
def DispatchesDetached (policy : SchedPolicy EntryDataRt SchedDataRt)
    (tr : SchedTrace EntryDataRt SchedDataRt) (e : SchedEvent) : Prop :=
  CallsWithBudget tr e ∧ ¬ ∃ v ∈ returned policy tr e, v ∈ tr.attached

/-- The event is a call that finds as the current entry one that has been detached with budget
left, and the entry that the scan of the queue prefers does not come before it; or all who have
budget left have the greatest of all numbers, which the scan does not find. -/
def KeepsDetached (key : EntryDataRt → U32) (tr : SchedTrace EntryDataRt SchedDataRt)
    (e : SchedEvent) : Prop :=
  CallsWithBudget tr e ∧
    ((∃ c ∈ tr.s.sd.current, (tr.s.entry c).vcpuid ∉ tr.attached ∧
      (tr.s.entry c).ed.budgetCntdn ≠ 0 ∧ ∃ p ∈ rtPreferred key tr.s, ¬ Before key tr.s p c) ∨
    ∀ v, BudgetLeft tr v → ∀ ed ∈ checkedEd tr.s v, key ed = 0xFFFFFFFF)

/-- For the entries that the policy knows of, to be in the queue is to be attached. -/
theorem QueueInv.mem_runqueue_iff (h : QueueInv tr) (hi : i ∈ tr.s.sd.refs) :
    i ∈ tr.s.sd.runqueue ↔ (tr.s.entry i).vcpuid ∈ tr.attached := by
  rw [h.attached]
  refine ⟨fun hmem => ⟨i, hmem, rfl⟩, ?_⟩
  rintro ⟨j, hj, hji⟩
  rwa [← h.core.refs_inj (mem_refs_of_mem_runqueue hj) hi hji]

/-- The scan finds nobody exactly if all who have budget left have the greatest number. -/
theorem QueueInv.rtPreferred_eq_none_iff (h : QueueInv tr) :
    rtPreferred key tr.s = none ↔
      ∀ v, BudgetLeft tr v → ∀ ed ∈ checkedEd tr.s v, key ed = 0xFFFFFFFF := by
  rw [rtPreferred, Scan.scan_eq_none_iff]
  constructor
  · intro hall v hv ed hed
    obtain ⟨i, hi, rfl, hready⟩ := h.budgetLeft_iff.mp hv
    rw [h.checkedEd_of_mem hi, Option.mem_some] at hed
    have hle := hall i hi hready
    have hlt := (key (tr.s.entry i).ed.check).isLt
    rw [rtKey, hed] at hle
    rw [hed] at hlt
    exact BitVec.eq_of_toNat_eq (Nat.le_antisymm (Nat.le_sub_one_of_lt hlt) hle)
  · intro hall i hi hready
    have hkey := hall _ (h.budgetLeft_iff.mpr ⟨i, hi, rfl, hready⟩) _ (h.checkedEd_of_mem hi)
    rw [rtKey, hkey]
    exact Nat.le_refl _

/-- A call that the current entry survives detached returns its virtual processor. -/
theorem QueueInv.returned_detached (h : QueueInv tr) {c p : EntryRef} {now expiration : U64}
    (hc : c ∈ tr.s.sd.current) (hdetached : (tr.s.entry c).vcpuid ∉ tr.attached)
    (hleft : (tr.s.entry c).ed.budgetCntdn ≠ 0) (hp : p ∈ rtPreferred n.key tr.s)
    (hnot : ¬ Before n.key tr.s p c) :
    returned (n.policy conf) tr (.schedule now expiration) = some (tr.s.entry c).vcpuid := by
  have hnotmem := (h.mem_runqueue_iff (mem_refs_of_mem_current hc)).not.mpr hdetached
  have hsome := rtDoSchedule_isSome h.nodup (Option.isSome_iff_exists.mpr ⟨p, hp⟩) now expiration
  obtain ⟨⟨s', v, expiration'⟩, hr⟩ := Option.isSome_iff_exists.mp hsome
  obtain ⟨p', x, hcall, rfl⟩ := rtDoSchedule_call h.nodup hr
  obtain rfl := Option.some.inj ((Option.mem_def.mp hp).symm.trans hcall.preferred)
  rcases hcall.chosen with ⟨rfl, hbefore⟩ | ⟨hx, -⟩
  · have hcounted : HasLeft tr.s c := by
      rw [HasLeft, rtCounted, if_neg hnotmem]
      exact hleft
    exact absurd (hbefore c hc hcounted) hnot
  · rw [Option.mem_def.mp hc, Option.some.injEq] at hx
    rw [returned, n.policy_doSchedule, hr, Option.map_some, hx]

theorem QueueInv.dispatchesDetached_iff (h : QueueInv tr) :
    DispatchesDetached (n.policy conf) tr e ↔ KeepsDetached n.key tr e := by
  refine and_congr_right fun he => ?_
  obtain ⟨⟨now, expiration, rfl⟩, -⟩ := he
  rw [← h.rtPreferred_eq_none_iff]
  constructor
  · intro hnobody
    cases hreturned : returned (n.policy conf) tr (.schedule now expiration) with
    | none =>
        refine Or.inr (Option.not_isSome_iff_eq_none.mp fun hsome => ?_)
        have hcall := rtDoSchedule_isSome h.nodup hsome now expiration
        rw [returned, n.policy_doSchedule, Option.map_eq_none_iff] at hreturned
        rw [hreturned] at hcall
        cases hcall
    | some v =>
        obtain ⟨s', p, x, hcall, rfl⟩ := rtCall_of_returned h.nodup hreturned
        have hdetached : (tr.s.entry x).vcpuid ∉ tr.attached := fun hmem =>
          hnobody ⟨_, hreturned, hmem⟩
        have hnotmem := (h.mem_runqueue_iff hcall.mem_refs).not.mpr hdetached
        rcases hcall.chosen with ⟨rfl, -⟩ | ⟨hx, hleft, hnot⟩
        · exact absurd (Scan.mem_of_scan_eq_some hcall.preferred) hnotmem
        · rw [HasLeft, rtCounted, if_neg hnotmem] at hleft
          exact Or.inl ⟨x, hx, hdetached, hleft, p, hcall.preferred, hnot⟩
  · rintro (⟨c, hc, hdetached, hleft, p, hp, hnot⟩ | hnone) ⟨v, hv, hmem⟩
    · rw [h.returned_detached hc hdetached hleft hp hnot, Option.mem_some] at hv
      exact hdetached (hv ▸ hmem)
    · obtain ⟨s', p, x, hcall, -⟩ := rtCall_of_returned h.nodup hv
      rw [hcall.preferred] at hnone
      cases hnone

/-- For both policies, all tables and every run: every call that finds somebody attached with budget
left returns somebody who is attached, exactly if none finds as the current entry one that was
detached with budget left and that the entry preferred in the queue does not come before, and none
finds that all who have budget left have the greatest of all numbers. -/
theorem dispatches_attached_iff (conf : SchedConf) (n : RtName) {pcpu : PcpuId}
    (hpcpu : pcpu < 254) (vmidOf : VcpuId → Option VmId) (block : SchedulerRt)
    (es : List SchedEvent) :
    ¬ Happened (schedStep (n.policy conf) pcpu vmidOf) (DispatchesDetached (n.policy conf))
        (freshTrace (n.policy conf) pcpu block) es ↔
      ¬ Happened (schedStep (n.policy conf) pcpu vmidOf) (KeepsDetached n.key)
        (freshTrace (n.policy conf) pcpu block) es :=
  not_congr (happened_congr (queueInv_freshTrace conf n pcpu block)
    (fun _ _ _ h => h.dispatchesDetached_iff)
    fun _ _ _ _ h _ hstep => h.step (succeeds_of_lt hpcpu) hstep)

/-- Both are attached, virtual processor 1 runs for a call and is detached with budget left. -/
def detachCurrent : List SchedEvent :=
  [.register 0, .register 1, .attach 0, .attach 1, .schedule 0 0, .detach (some 1) 1]

theorem dispatches_attached_iff_detachCurrent :
    ¬ Happened (schedStep (RtName.rm.policy idleAndOne) 0 fun _ => some 0)
        (DispatchesDetached (RtName.rm.policy idleAndOne))
        (freshTrace (RtName.rm.policy idleAndOne) 0 default) detachCurrent ↔
      ¬ Happened (schedStep (RtName.rm.policy idleAndOne) 0 fun _ => some 0)
        (KeepsDetached EntryDataRt.period)
        (freshTrace (RtName.rm.policy idleAndOne) 0 default) detachCurrent :=
  dispatches_attached_iff idleAndOne .rm (by decide) (fun _ => some 0) default detachCurrent

/-- The next call returns it again, though the idle virtual processor is attached and has budget
left. -/
theorem detached_dispatched :
    ∃ tr, run (schedStep (RtName.rm.policy idleAndOne) 0 fun _ => some 0)
        (freshTrace (RtName.rm.policy idleAndOne) 0 default) detachCurrent = some tr ∧
      BudgetLeft tr 0 ∧ 1 ∉ tr.attached ∧
      returned (RtName.rm.policy idleAndOne) tr (.schedule 0 0) = some 1 :=
  ⟨_, rfl, ⟨by decide, _, rfl, by decide⟩, by decide, rfl⟩

end KHypervisor
