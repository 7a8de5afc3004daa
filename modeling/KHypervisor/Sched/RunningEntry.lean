import KHypervisor.Sched.DeadlineMiss
import KHypervisor.Sched.Rotation

/-!
# The entry that is marked as running

A call marks the entry that it lets run, and the mark of the one that ran before has to be taken
away. The round-robin policy does so in every call, the real-time policies only where the budget is
used up. Where an entry is preempted, two are marked (`one_running_iff`).
-/

namespace KHypervisor

open Scheduler Run

/-- After a call that returns a virtual processor, its entry is the only one of the scheduler in the
running state, and those of all others that are attached are waiting. -/
def OneRunning {ED SD : Type} (policy : SchedPolicy ED SD) (t : SchedTrace ED SD) (e : SchedEvent)
    (t' : SchedTrace ED SD) : Prop :=
  ∀ v ∈ returned policy t e, v ∈ t.attached → ∃ x, findEntry t'.s v = some x ∧
    (∀ j < t'.s.nrEntries, (t'.s.entry j).state = .running ↔ j = x) ∧
    ∀ w ∈ t'.attached, w ≠ v → ∀ j, findEntry t'.s w = some j → (t'.s.entry j).state = .waiting

/-- The event is a call that finds a current entry with budget left, and the entry that the scan of
the queue prefers comes before it. -/
def RtPreempts (key : EntryDataRt → U32) (tr : SchedTrace EntryDataRt SchedDataRt)
    (e : SchedEvent) : Prop :=
  (∃ now expiration, e = .schedule now expiration) ∧
    ∃ c ∈ tr.s.sd.current, HasLeft tr.s c ∧ ∃ p ∈ rtPreferred key tr.s, Before key tr.s p c

/-- The event is a call that preempts an entry with budget left. -/
def PolicyName.Preempts : (n : PolicyName) → SchedTrace n.EntryData n.SchedData → SchedEvent → Prop
  | .rr => fun _ _ => False
  | .rtRm => RtPreempts EntryDataRt.period
  | .rtEdf => RtPreempts EntryDataRt.periodCntdn

section

variable {ED SD : Type} {policy : SchedPolicy ED SD} {refs : SD → List EntryRef}
  {t t' : SchedTrace ED SD} {e : SchedEvent} {x : EntryRef}

theorem CoreInv.waiting_of_not_running {s : Scheduler ED SD} (h : CoreInv refs s) {i : EntryRef}
    (hi : i ∈ refs s.sd) (hnot : (s.entry i).state ≠ .running) : (s.entry i).state = .waiting := by
  have hdetached := h.state i hi
  cases hstate : (s.entry i).state with
  | detached => exact absurd hstate hdetached
  | waiting => rfl
  | running => exact absurd hstate hnot

/-- The current entry, if there is one, is the only one that is marked. -/
def OnlyMarked (current : Option EntryRef) (s : Scheduler ED SD) : Prop :=
  ∀ j < s.nrEntries, (s.entry j).state = .running ↔ current = some j

section

variable {s s' : Scheduler ED SD} {current next : Option EntryRef} {k : EntryRef}

theorem OnlyMarked.register (h : OnlyMarked current s) (hlt : ∀ j ∈ current, j < s.nrEntries)
    (policy : SchedPolicy ED SD) (v : VcpuId) :
    OnlyMarked current (schedVcpuRegister policy v s) := by
  intro j hj
  rcases Nat.lt_succ_iff_lt_or_eq.mp hj with hold | rfl
  · rw [schedVcpuRegister_entry_of_lt _ _ _ hold]
    exact h j hold
  · rw [schedVcpuRegister_entry_self]
    exact iff_of_false (by simp) fun hnew => Nat.lt_irrefl _ (hlt _ hnew)

theorem OnlyMarked.attach (h : OnlyMarked current s) (hnew : current ≠ some k)
    (hnr : s'.nrEntries = s.nrEntries)
    (hstate : ∀ j, (s'.entry j).state = if j = k then .waiting else (s.entry j).state) :
    OnlyMarked current s' := by
  intro j hj
  rw [hnr] at hj
  rw [hstate]
  by_cases hjk : j = k
  · rw [if_pos hjk, hjk]
    exact iff_of_false (by simp) hnew
  · rw [if_neg hjk]
    exact h j hj

theorem OnlyMarked.call (h : OnlyMarked current s) (hnr : s'.nrEntries = s.nrEntries)
    (hnext : ∀ j, next = some j → (s'.entry j).state = .running)
    (hcurrent : ∀ j, next ≠ some j → current = some j → (s'.entry j).state = .waiting)
    (hothers : ∀ j, next ≠ some j → current ≠ some j →
      (s'.entry j).state = (s.entry j).state) : OnlyMarked next s' := by
  intro j hj
  rw [hnr] at hj
  by_cases hn : next = some j
  · exact iff_of_true (hnext j hn) hn
  · refine iff_of_false ?_ hn
    by_cases hc : current = some j
    · rw [hcurrent j hn hc]
      simp
    · rw [hothers j hn hc]
      exact fun hrun => hc ((h j hj).mp hrun)

end

/-- The law holds if the entry that runs is the only one that is marked. -/
theorem oneRunning_of_marked (hcore : CoreInv refs t'.s)
    (hattached : ∀ w ∈ t'.attached, ∃ j ∈ refs t'.s.sd, (t'.s.entry j).vcpuid = w)
    (hx : x ∈ refs t'.s.sd) (hreturned : returned policy t e = some (t'.s.entry x).vcpuid)
    (hmarked : OnlyMarked (some x) t'.s) : OneRunning policy t e t' := by
  have hrunning : ∀ j < t'.s.nrEntries, (t'.s.entry j).state = .running ↔ j = x := fun j hj => by
    rw [hmarked j hj, Option.some.injEq]
    exact eq_comm
  intro v hv _
  rw [hreturned, Option.mem_some] at hv
  refine ⟨x, hv ▸ hcore.found x hx, hrunning, fun w hw hwv j hj => ?_⟩
  obtain ⟨i, hi, rfl⟩ := hattached w hw
  obtain rfl := Option.some.inj ((hcore.found i hi).symm.trans hj)
  refine hcore.waiting_of_not_running hi fun hrun => hwv ?_
  rw [(hrunning i (hcore.lt_nrEntries hi)).mp hrun, hv]

end

variable {conf : SchedConf} {pcpu : PcpuId} {vmidOf : VcpuId → Option VmId} {e : SchedEvent}

/-! ## Real time -/

section

variable {n : RtName} {tr tr' : SchedTrace EntryDataRt SchedDataRt}

/-- The current entry is the only one that is marked. -/
structure MarkInv (tr : SchedTrace EntryDataRt SchedDataRt) : Prop extends QueueInv tr where
  current : ∀ c ∈ tr.s.sd.current, c ∈ tr.s.sd.runqueue
  running : ∀ j < tr.s.nrEntries, (tr.s.entry j).state = .running ↔ tr.s.sd.current = some j

theorem MarkInv.oneRunning (h : MarkInv tr') {policy : SchedPolicy EntryDataRt SchedDataRt}
    {x : EntryRef} (hx : tr'.s.sd.current = some x)
    (hreturned : returned policy tr e = some (tr'.s.entry x).vcpuid) :
    OneRunning policy tr e tr' := by
  refine oneRunning_of_marked h.core (fun w hw => ?_)
    (mem_refs_of_mem_runqueue (h.current x hx)) hreturned (hx ▸ h.running)
  obtain ⟨j, hj, hjw⟩ := (h.attached w).mp hw
  exact ⟨j, mem_refs_of_mem_runqueue hj, hjw⟩

/-- Without a preemption the entry that ran is the one that runs, or has no budget left. -/
theorem MarkInv.call (h : MarkInv tr) {p x : EntryRef} {s' : SchedulerRt}
    (hcall : RtCall n.key tr.s s' p x) {now expiration : U64}
    (hkept : ¬ RtPreempts n.key tr (.schedule now expiration)) :
    OnlyMarked s'.sd.current s' := by
  rw [hcall.current]
  refine OnlyMarked.call h.running hcall.nrEntries (fun j hj => ?_) (fun j hj hcur => ?_)
    fun j hj hcur => ?_
  · rw [hcall.state, if_pos (Option.some.inj hj).symm]
  · have hjx : j ≠ x := fun heq => hj (by rw [heq])
    have hout : ¬ HasLeft tr.s j := by
      intro hleft
      rcases hcall.chosen with ⟨rfl, hbefore⟩ | ⟨hx, -⟩
      · exact hkept ⟨⟨now, expiration, rfl⟩, j, hcur, hleft, x, hcall.preferred,
          hbefore j hcur hleft⟩
      · exact hjx (Option.some.inj (hcur.symm.trans hx))
    rw [hcall.state, if_neg hjx, if_pos ⟨hcur, hout⟩]
  · have hjx : j ≠ x := fun heq => hj (by rw [heq])
    rw [hcall.state, if_neg hjx, if_neg fun hall => hcur hall.1]

theorem MarkInv.step (hpcpu : Succeeds pcpu) (h : MarkInv tr) (hkeep : ¬ IsDetach e)
    (hkept : ¬ RtPreempts n.key tr e)
    (hstep : schedStep (n.policy conf) pcpu vmidOf tr e = some tr') :
    OneRunning (n.policy conf) tr e tr' ∧ MarkInv tr' := by
  have hqueue := h.toQueueInv.step hpcpu hstep
  have hcurrent := current_mem_step hpcpu h.toQueueInv
    (fun c v hdetach => hkeep (by rw [hdetach]; trivial)) h.current hstep
  cases rtStep_of_schedStep hpcpu h.nodup hstep with
  | register v =>
      refine ⟨fun w hw => absurd hw (Option.not_mem_none w), hqueue, hcurrent, ?_⟩
      exact OnlyMarked.register h.running
        (fun j hj => h.core.lt_nrEntries (mem_refs_of_mem_current hj)) _ v
  | refused v => exact ⟨fun w hw => absurd hw (Option.not_mem_none w), h⟩
  | attach v k s' hfind hattach =>
      have hnew : tr.s.sd.current ≠ some k := fun hk =>
        h.core.not_mem_of_detached hattach.detached (mem_refs_of_mem_current hk)
      have hmarked : OnlyMarked s'.sd.current s' := by
        rw [hattach.current]
        exact OnlyMarked.attach h.running hnew hattach.nrEntries hattach.state
      exact ⟨fun w hw => absurd hw (Option.not_mem_none w), hqueue, hcurrent, hmarked⟩
  | detach c v => exact absurd trivial hkeep
  | schedule now expiration p x s' hcall hreturned =>
      have hnext : MarkInv { tr with s := s' } := ⟨hqueue, hcurrent, h.call hcall hkept⟩
      refine ⟨hnext.oneRunning hcall.current ?_, hnext⟩
      rw [hreturned, ← hcall.vcpuid]

theorem MarkInv.step_preempts (hpcpu : Succeeds pcpu) (h : MarkInv tr)
    (hpreempts : RtPreempts n.key tr e)
    (hstep : schedStep (n.policy conf) pcpu vmidOf tr e = some tr') :
    ¬ OneRunning (n.policy conf) tr e tr' := by
  obtain ⟨⟨now, expiration, rfl⟩, c, hc, hleft, p, hp, hbefore⟩ := hpreempts
  intro hlaw
  cases rtStep_of_schedStep hpcpu h.nodup hstep with
  | schedule _ _ p' x s' hcall hreturned =>
      obtain rfl := Option.some.inj ((Option.mem_def.mp hp).symm.trans hcall.preferred)
      have hx : x = p := by
        rcases hcall.chosen with ⟨hx, -⟩ | ⟨hx, -, hnot⟩
        · exact hx
        · rw [Option.mem_def.mp hc, Option.some.injEq] at hx
          rw [hx] at hbefore
          exact absurd hbefore hnot
      have hcx : c ≠ x := by
        rintro rfl
        rw [hx] at hbefore
        exact absurd hbefore (BitVec.lt_irrefl _)
      have hmem : x ∈ tr.s.sd.runqueue := hx ▸ Scan.mem_of_scan_eq_some hcall.preferred
      obtain ⟨y, hy, hrunning, -⟩ := hlaw _ hreturned ((h.attached _).mpr ⟨x, hmem, rfl⟩)
      dsimp only at hy hrunning
      have hlt : ∀ j ∈ tr.s.sd.refs, j < s'.nrEntries := fun j hj => by
        rw [hcall.nrEntries]
        exact h.core.lt_nrEntries hj
      have hfirst : x = y := by
        refine (hrunning x (hlt x (mem_refs_of_mem_runqueue hmem))).mp ?_
        rw [hcall.state, if_pos rfl]
      have hsecond : c = y := by
        refine (hrunning c (hlt c (mem_refs_of_mem_current hc))).mp ?_
        rw [hcall.state, if_neg hcx, if_neg fun hall => hall.2 hleft]
        exact (h.running c (h.core.lt_nrEntries (mem_refs_of_mem_current hc))).mpr hc
      exact hcx (hsecond.trans hfirst.symm)

theorem markInv_freshTrace (conf : SchedConf) (n : RtName) (pcpu : PcpuId) (block : SchedulerRt) :
    MarkInv (freshTrace (n.policy conf) pcpu block) := by
  refine ⟨queueInv_freshTrace conf n pcpu block, fun c hc => ?_,
    fun j hj => absurd hj (Nat.not_lt_zero j)⟩
  cases n <;> cases hc

theorem rt_one_running_iff (conf : SchedConf) (n : RtName) (hpcpu : Succeeds pcpu)
    (vmidOf : VcpuId → Option VmId) (block : SchedulerRt) {es : List SchedEvent}
    (hkeep : ∀ e ∈ es, ¬ IsDetach e)
    (hrun : run (schedStep (n.policy conf) pcpu vmidOf) (freshTrace (n.policy conf) pcpu block) es =
      some tr) :
    Follows (schedStep (n.policy conf) pcpu vmidOf) (OneRunning (n.policy conf))
        (freshTrace (n.policy conf) pcpu block) es ↔
      ¬ Happened (schedStep (n.policy conf) pcpu vmidOf) (RtPreempts n.key)
        (freshTrace (n.policy conf) pcpu block) es :=
  follows_iff_not_happened hrun (markInv_freshTrace conf n pcpu block)
    (fun _ e he _ h hkept hstep => h.step hpcpu (hkeep e he) hkept hstep)
    fun _ _ _ _ h hpreempts hstep => h.step_preempts hpcpu hpreempts hstep

end

/-! ## Round robin -/

section

variable {tr tr' : SchedTrace EntryDataRr SchedDataRr}

/-- The current entry is the only one that is marked. -/
structure RrMarkInv (tr : SchedTrace EntryDataRr SchedDataRr) : Prop extends RunqueueInv tr where
  running : ∀ j < tr.s.nrEntries, (tr.s.entry j).state = .running ↔ tr.s.sd.current = some j

theorem RrMarkInv.call (h : RrMarkInv tr) {s' : SchedulerRr} (hcall : RrCall tr.s s') :
    OnlyMarked s'.sd.current s' := by
  refine OnlyMarked.call h.running hcall.nrEntries (fun j hj => ?_) (fun j hj hcur => ?_)
    fun j hj hcur => ?_
  · rw [hcall.state, if_pos hj]
  · rw [hcall.state, if_neg hj, if_pos hcur]
  · rw [hcall.state, if_neg hj, if_neg hcur]

theorem RrMarkInv.step (hpcpu : Succeeds pcpu) (h : RrMarkInv tr) (hkeep : ¬ IsDetach e)
    (hstep : schedStep (schedRr conf) pcpu vmidOf tr e = some tr') :
    OneRunning (schedRr conf) tr e tr' ∧ RrMarkInv tr' := by
  have hqueue := h.toRunqueueInv.step_keep hpcpu hkeep hstep
  have hknown : ∀ j ∈ tr.s.sd.current, j ∈ tr.s.sd.refs := fun j hj =>
    List.mem_append_left _ (Option.mem_toList.mpr hj)
  cases rrStep_of_schedStep hpcpu hstep with
  | register v =>
      refine ⟨fun w hw => absurd hw (Option.not_mem_none w), hqueue, ?_⟩
      exact OnlyMarked.register h.running (fun j hj => h.core.lt_nrEntries (hknown j hj)) _ v
  | refused v => exact ⟨fun w hw => absurd hw (Option.not_mem_none w), h⟩
  | attach v k s' hfind hattach =>
      have hnew : tr.s.sd.current ≠ some k := fun hk =>
        h.core.state k (hknown k hk) hattach.detached
      have hmarked : OnlyMarked s'.sd.current s' := by
        rw [hattach.sd]
        exact OnlyMarked.attach h.running hnew hattach.nrEntries hattach.state
      exact ⟨fun w hw => absurd hw (Option.not_mem_none w), hqueue, hmarked⟩
  | detach c v => exact absurd trivial hkeep
  | schedule now expiration s' hcall =>
      refine ⟨fun v hv hattached => ?_, hqueue, h.call hcall⟩
      cases hturns : tr.s.sd.turns with
      | nil =>
          obtain ⟨j, hj, -⟩ := (h.attached v).mp hattached
          rw [← tr.s.sd.turns_perm.mem_iff, hturns] at hj
          exact absurd hj List.not_mem_nil
      | cons x rest =>
          have hcurrent : s'.sd.current = some x := by
            rw [hcall.sd, SchedDataRr.rotate_of_turns hturns]
          have hreturned : returned (schedRr conf) tr (.schedule now expiration) =
              some (s'.entry x).vcpuid := by
            rw [returned_rr, nextTurn, hturns, hcall.vcpuid]
            rfl
          exact oneRunning_of_marked hqueue.core (fun w hw => (hqueue.attached w).mp hw)
            (List.mem_append_left _ (Option.mem_toList.mpr hcurrent)) hreturned
            (hcurrent ▸ h.call hcall) v hv hattached

theorem rrMarkInv_freshTrace (conf : SchedConf) (pcpu : PcpuId) (block : SchedulerRr) :
    RrMarkInv (freshTrace (schedRr conf) pcpu block) :=
  ⟨runqueueInv_start conf pcpu block, fun j hj => absurd hj (Nat.not_lt_zero j)⟩

theorem rr_one_running_iff (conf : SchedConf) (hpcpu : Succeeds pcpu)
    (vmidOf : VcpuId → Option VmId) (block : SchedulerRr) {es : List SchedEvent}
    (hkeep : ∀ e ∈ es, ¬ IsDetach e)
    (hrun : run (schedStep (schedRr conf) pcpu vmidOf) (freshTrace (schedRr conf) pcpu block) es =
      some tr) :
    Follows (schedStep (schedRr conf) pcpu vmidOf) (OneRunning (schedRr conf))
        (freshTrace (schedRr conf) pcpu block) es ↔
      ¬ Happened (schedStep (schedRr conf) pcpu vmidOf) (fun _ _ => False)
        (freshTrace (schedRr conf) pcpu block) es :=
  follows_iff_not_happened hrun (rrMarkInv_freshTrace conf pcpu block)
    (fun _ e he _ h _ hstep => h.step hpcpu (hkeep e he) hstep)
    fun _ _ _ _ _ hfalse => hfalse.elim

end

/-! ## All policies -/

/-- For every policy, all tables and every run of attachments and calls: after every call that
returns a virtual processor its entry is the only one marked as running, and the others that are
attached are waiting, exactly if no call preempts an entry with budget left. -/
theorem one_running_iff (conf : SchedConf) (n : PolicyName) {pcpu : PcpuId} (hpcpu : pcpu < 254)
    (vmidOf : VcpuId → Option VmId) (block : Scheduler n.EntryData n.SchedData)
    {es : List SchedEvent} (hkeep : ∀ e ∈ es, ¬ IsDetach e)
    {t : SchedTrace n.EntryData n.SchedData}
    (hrun : run (schedStep (n.policy conf) pcpu vmidOf) (freshTrace (n.policy conf) pcpu block) es =
      some t) :
    Follows (schedStep (n.policy conf) pcpu vmidOf) (OneRunning (n.policy conf))
        (freshTrace (n.policy conf) pcpu block) es ↔
      ¬ Happened (schedStep (n.policy conf) pcpu vmidOf) n.Preempts
        (freshTrace (n.policy conf) pcpu block) es := by
  have hsucc : Succeeds pcpu := succeeds_of_lt hpcpu
  cases n with
  | rr => exact rr_one_running_iff conf hsucc vmidOf block hkeep hrun
  | rtRm => exact rt_one_running_iff conf .rm hsucc vmidOf block hkeep hrun
  | rtEdf => exact rt_one_running_iff conf .edf hsucc vmidOf block hkeep hrun

theorem one_running_iff_attachLate :
    Follows (schedStep (PolicyName.rtRm.policy idleAndOne) 0 fun _ => some 0)
        (OneRunning (PolicyName.rtRm.policy idleAndOne))
        (freshTrace (PolicyName.rtRm.policy idleAndOne) 0 default) attachLate ↔
      ¬ Happened (schedStep (PolicyName.rtRm.policy idleAndOne) 0 fun _ => some 0)
        PolicyName.rtRm.Preempts (freshTrace (PolicyName.rtRm.policy idleAndOne) 0 default)
        attachLate :=
  one_running_iff idleAndOne .rtRm (by decide) (fun _ => some 0) default (by decide) rfl

/-- The idle virtual processor runs, and is preempted by the one that is attached late: both are
marked. -/
theorem preempted_stays_running :
    ∃ t t', run (schedStep (PolicyName.rtRm.policy idleAndOne) 0 fun _ => some 0)
        (freshTrace (PolicyName.rtRm.policy idleAndOne) 0 default)
        [.register 0, .attach 0, .schedule 0 0, .register 1, .attach 1] = some t ∧
      schedStep (PolicyName.rtRm.policy idleAndOne) 0 (fun _ => some 0) t (.schedule 0 0) =
        some t' ∧
      returned (PolicyName.rtRm.policy idleAndOne) t (.schedule 0 0) = some 1 ∧
      (t'.s.entry 0).state = .running ∧ (t'.s.entry 1).state = .running ∧
      ¬ OneRunning (PolicyName.rtRm.policy idleAndOne) t (.schedule 0 0) t' := by
  refine ⟨_, _, rfl, rfl, rfl, rfl, rfl, fun hlaw => ?_⟩
  obtain ⟨x, -, hrunning, -⟩ := hlaw 1 rfl (by decide)
  have hfirst := (hrunning 0 (by decide)).mp rfl
  have hsecond := (hrunning 1 (by decide)).mp rfl
  exact absurd (hfirst.trans hsecond.symm) (by decide)

end KHypervisor
