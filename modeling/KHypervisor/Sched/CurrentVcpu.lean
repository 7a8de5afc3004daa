import KHypervisor.Sched.Entries
import KHypervisor.Sched.RealTimeRuns
import KHypervisor.System

/-!
# The current virtual processor and its entry

A scheduler should run nobody who is not attached to it. Two things break this: a detachment asks
whom the processor runs that executes it, and not whom the scheduler runs that it detaches from;
and the real-time policies go on with an entry after it has been detached. Nothing else does
(`currentLaw_iff`).
-/

namespace KHypervisor

open Run Scheduler

section

variable {ED SD : Type} (s : Scheduler ED SD)

def AttachedTo (v : VcpuId) : Prop := ∃ i, findEntry s v = some i ∧ i ∈ s.inflightEntries

/-- The scheduler runs nobody, or somebody who is attached to it. -/
def CurrentAttached : Prop :=
  s.currentVcpuid = vcpuidInvalid ∨ AttachedTo s s.currentVcpuid

end

/-- A call goes on with a current entry that is not in flight: it has budget left, and the entry
that the scan of the queue prefers does not come before it. -/
def RtKeepsDetached (key : EntryDataRt → U32) (s : SchedulerRt) : Prop :=
  ∃ c ∈ s.sd.current, c ∉ s.inflightEntries ∧ (s.entry c).vcpuid ≠ vcpuidInvalid ∧
    (s.entry c).ed.budgetCntdn ≠ 0 ∧ ∃ p ∈ rtPreferred key s, ¬ Before key s p c

/-- A call of the policy goes on with an entry that has been detached. -/
def PolicyName.KeepsDetached :
    (n : PolicyName) → Scheduler n.EntryData n.SchedData → Prop
  | .rr => fun _ => False
  | .rtRm => RtKeepsDetached EntryDataRt.period
  | .rtEdf => RtKeepsDetached EntryDataRt.periodCntdn

/-- The entries that the policy chooses from, apart from a current one that it only remembers. -/
def PolicyName.queue : (n : PolicyName) → n.SchedData → List EntryRef
  | .rr => SchedDataRr.refs
  | .rtRm => SchedDataRt.runqueue
  | .rtEdf => SchedDataRt.runqueue

variable {gPolicy : PcpuId → PolicyName} {conf : SchedConf} {numLr : ℕ}

/-- The event detaches somebody from the scheduler that runs it, on a processor that runs somebody
else; or it asks a policy that goes on with an entry that has been detached. -/
def StrandsCurrent (σ : System gPolicy) : SystemEvent → Prop
  | .detach cpu v p =>
      (σ.sched p).currentVcpuid = v ∧ v ≠ vcpuidInvalid ∧ (σ.sched cpu).currentVcpu ≠ some v
  | .start cpu _ _ | .schedule cpu _ _ _ => (gPolicy cpu).KeepsDetached (σ.sched cpu)
  | .register .. | .attach .. | .performSwitch .. | .guest .. => False

/-- After the event every scheduler runs nobody or somebody who is attached to it; and if it was a
detachment, the other schedulers run whom they ran before. -/
structure CurrentLaw (σ : System gPolicy) (e : SystemEvent) (τ : System gPolicy) : Prop where
  attached : ∀ p, CurrentAttached (τ.sched p)
  others : ∀ cpu v p, e = .detach cpu v p → ∀ q, q ≠ p →
    (τ.sched q).currentVcpuid = (σ.sched q).currentVcpuid

/-! ## What the policies choose from -/

section

variable {n : PolicyName} {s : Scheduler n.EntryData n.SchedData}

theorem PolicyName.queue_init (conf : SchedConf) (s : Scheduler n.EntryData n.SchedData) :
    n.queue ((n.policy conf).init s) = [] := by
  cases n <;> rfl

theorem PolicyName.queue_attach (conf : SchedConf) (i : EntryRef)
    (s : Scheduler n.EntryData n.SchedData) :
    n.queue ((n.policy conf).attachVcpu i s).sd = n.queue s.sd ++ [i] := by
  cases n with
  | rr => exact (List.append_assoc ..).symm
  | rtRm => rfl
  | rtEdf => rfl

theorem PolicyName.queue_detach (conf : SchedConf) (i : EntryRef)
    (s : Scheduler n.EntryData n.SchedData) :
    (n.queue ((n.policy conf).detachVcpu i s).sd).Sublist ((n.queue s.sd).erase i) := by
  cases n with
  | rr => exact (List.sublist_append_right ..).erase i
  | rtRm => exact List.Sublist.refl _
  | rtEdf => exact List.Sublist.refl _

theorem PolicyName.queue_doSchedule {now expiration : U64}
    {r : Scheduler n.EntryData n.SchedData × VcpuId × U64}
    (h : (n.policy conf).doSchedule now expiration s = some r) :
    (n.queue r.1.sd).Perm (n.queue s.sd) := by
  cases n with
  | rr =>
      obtain ⟨s', v, expiration', hcall, hsd, -⟩ := schedRrDoSchedule_some now expiration s
      obtain rfl := Option.some.inj (hcall.symm.trans h)
      dsimp only [queue]
      rw [hsd]
      exact s.sd.rotate_perm
  | rtRm => exact List.Perm.of_eq (rtDoSchedule_touches h).2.1
  | rtEdf => exact List.Perm.of_eq (rtDoSchedule_touches h).2.1

/-- For the entries that a policy knows of, to be attached is to be in flight. -/
theorem CoreInv.attachedTo_iff {ED SD : Type} {refs : SD → List EntryRef} {s : Scheduler ED SD}
    (h : CoreInv refs s) {i : EntryRef} (hi : i ∈ refs s.sd) :
    AttachedTo s (s.entry i).vcpuid ↔ i ∈ s.inflightEntries := by
  rw [AttachedTo, h.found i hi]
  refine ⟨?_, fun hin => ⟨i, rfl, hin⟩⟩
  rintro ⟨j, hj, hin⟩
  rwa [Option.some.inj hj]

theorem rtDoSchedule_keepsDetached {key : EntryDataRt → U32} {s : SchedulerRt}
    (hcore : CoreInv SchedDataRt.refs s) (hnodup : s.sd.runqueue.Nodup)
    (hqueued : ∀ i ∈ s.sd.runqueue, i ∈ s.inflightEntries) {now expiration : U64}
    {r : SchedulerRt × VcpuId × U64} (h : rtDoSchedule key now expiration s = some r) :
    RtKeepsDetached key s ↔ r.2.1 ≠ vcpuidInvalid ∧ ¬ AttachedTo s r.2.1 := by
  obtain ⟨p, x, hcall, hx⟩ := rtDoSchedule_call hnodup h
  have hcounted : ∀ c, c ∉ s.inflightEntries → rtCounted s c = (s.entry c).ed := fun c hc =>
    if_neg fun hmem => hc (hqueued c hmem)
  rw [hx, hcore.attachedTo_iff hcall.mem_refs]
  constructor
  · rintro ⟨c, hc, hout, hvalid, hleft, q, hq, hnot⟩
    obtain rfl := Option.some.inj ((Option.mem_def.mp hq).symm.trans hcall.preferred)
    rcases hcall.chosen with ⟨-, hbefore⟩ | ⟨hcur, -⟩
    · refine absurd (hbefore c hc ?_) hnot
      rw [HasLeft, hcounted c hout]
      exact hleft
    · obtain rfl := Option.some.inj ((Option.mem_def.mp hc).symm.trans hcur)
      exact ⟨hvalid, hout⟩
  · rintro ⟨hvalid, hout⟩
    rcases hcall.chosen with ⟨rfl, -⟩ | ⟨hcur, hleft, hbefore⟩
    · exact absurd (hqueued x (Scan.mem_of_scan_eq_some hcall.preferred)) hout
    · rw [HasLeft, hcounted x hout] at hleft
      exact ⟨x, hcur, hout, hvalid, hleft, p, hcall.preferred, hbefore⟩

/-- A policy chooses somebody who is not attached exactly if it keeps an entry that has been
detached. -/
theorem PolicyName.doSchedule_keepsDetached (hcore : CoreInv n.refs s)
    (hnodup : (n.queue s.sd).Nodup) (hqueued : ∀ i ∈ n.queue s.sd, i ∈ s.inflightEntries)
    {now expiration : U64} {r : Scheduler n.EntryData n.SchedData × VcpuId × U64}
    (h : (n.policy conf).doSchedule now expiration s = some r) :
    n.KeepsDetached s ↔ r.2.1 ≠ vcpuidInvalid ∧ ¬ AttachedTo s r.2.1 := by
  cases n with
  | rr =>
      refine iff_of_false id fun ⟨hvalid, hout⟩ => ?_
      obtain ⟨x, hx, hpick⟩ := (PolicyName.rr.picks conf h).resolve_left hvalid
      rw [hpick, hcore.attachedTo_iff hx] at hout
      exact hout (hqueued x hx)
  | rtRm => exact rtDoSchedule_keepsDetached hcore hnodup hqueued h
  | rtEdf => exact rtDoSchedule_keepsDetached hcore hnodup hqueued h

/-! ## One scheduler -/

/-- What the policy chooses from is in flight, each entry once, and no switch is pending. -/
structure FlightInv (n : PolicyName) (s : Scheduler n.EntryData n.SchedData) : Prop where
  entries : EntriesInv s
  core : CoreInv n.refs s
  nodup : (n.queue s.sd).Nodup
  queued : ∀ i ∈ n.queue s.sd, i ∈ s.inflightEntries
  next : s.nextVcpuid = vcpuidInvalid

theorem flightInv_schedInit (conf : SchedConf) (n : PolicyName) (pcpu : PcpuId)
    (block : Scheduler n.EntryData n.SchedData) :
    FlightInv n (schedInit (n.policy conf) pcpu block) := by
  have hqueue : n.queue (schedInit (n.policy conf) pcpu block).sd = [] := n.queue_init conf block
  refine ⟨entriesInv_schedInit .., coreInv_freshTrace (n.spec conf) pcpu block, ?_, ?_, rfl⟩
  · rw [hqueue]
    exact List.nodup_nil
  · rw [hqueue]
    exact fun _ hi => absurd hi List.not_mem_nil

theorem FlightInv.register (h : FlightInv n s) (conf : SchedConf) (v : VcpuId) :
    FlightInv n (schedVcpuRegister (n.policy conf) v s) :=
  ⟨h.entries.register _ v, h.core.register v, h.nodup, h.queued, h.next⟩

theorem nextVcpuid_attach (conf : SchedConf) (v : VcpuId) (p : PcpuId)
    (s : Scheduler n.EntryData n.SchedData) :
    (schedVcpuAttach (n.policy conf) v p s).1.nextVcpuid = s.nextVcpuid := by
  rw [schedVcpuAttach]
  cases findEntry s v with
  | none => rfl
  | some i =>
      dsimp only
      split
      · rfl
      · exact ((n.spec conf).attach i (s.setState i .waiting)).nextVcpuid

theorem FlightInv.attach (h : FlightInv n s) (conf : SchedConf) (v : VcpuId) (p : PcpuId) :
    FlightInv n (schedVcpuAttach (n.policy conf) v p s).1 ∧
      (CurrentAttached s → CurrentAttached (schedVcpuAttach (n.policy conf) v p s).1) := by
  have hnext := nextVcpuid_attach conf v p s
  rcases (n.spec conf).attach_cases v p s with ⟨hsame, -⟩ | ⟨i, hi, hattach, hcurrent⟩
  · rw [hsame]
    exact ⟨h, id⟩
  · have hqueue : n.queue (schedVcpuAttach (n.policy conf) v p s).1.sd = n.queue s.sd ++ [i] := by
      rw [hattach.sd, n.queue_attach, setState_sd]
    have hnew : i ∉ n.queue s.sd := fun hmem =>
      h.entries.state i (h.queued i hmem) hattach.detached
    refine ⟨⟨h.entries.attach hi hattach, h.core.attach (n.spec conf) hi hattach, ?_,
      fun j hj => ?_, hnext.trans h.next⟩, fun hcur => ?_⟩
    · rw [hqueue, ← List.concat_eq_append]
      exact h.nodup.concat hnew
    · rw [hqueue, List.mem_append] at hj
      rw [hattach.inflight, List.mem_append]
      exact hj.imp_left (h.queued j)
    · rw [CurrentAttached, hcurrent.currentVcpuid, AttachedTo, hattach.findEntry, hattach.inflight]
      exact hcur.imp_right fun ⟨j, hj, hmem⟩ => ⟨j, hj, List.mem_append_left _ hmem⟩

theorem currentVcpuid_detach {current : Option VcpuId} {v : VcpuId}
    {s' : Scheduler n.EntryData n.SchedData}
    (hs : schedVcpuDetach (n.policy conf) current v s = some s') :
    s'.currentVcpuid = (if current = some v then vcpuidInvalid else s.currentVcpuid) ∧
      s'.nextVcpuid = s.nextVcpuid := by
  obtain ⟨i, -, hs⟩ := Option.bind_eq_some_iff.mp hs
  obtain ⟨c, rfl, hs⟩ := Option.bind_eq_some_iff.mp hs
  have hdetach := (n.spec conf).detach i s
  rw [← Option.some.inj hs, if_congr Option.some_inj rfl rfl]
  split
  · exact ⟨rfl, hdetach.nextVcpuid⟩
  · exact ⟨hdetach.currentVcpuid, hdetach.nextVcpuid⟩

/-- A detachment takes the entry away from the core and from what the policy chooses from. Whoever
the scheduler runs stays attached, unless it is the one detached and is not what the processor
runs. -/
theorem FlightInv.detach (h : FlightInv n s) (hcur : CurrentAttached s) {current : Option VcpuId}
    {v : VcpuId} {s' : Scheduler n.EntryData n.SchedData}
    (hs : schedVcpuDetach (n.policy conf) current v s = some s') :
    FlightInv n s' ∧ (CurrentAttached s' ↔
      ¬ (s.currentVcpuid = v ∧ v ≠ vcpuidInvalid ∧ current ≠ some v)) := by
  obtain ⟨hcurrent, hnext⟩ := currentVcpuid_detach hs
  obtain ⟨i, hi, hdetach⟩ := (n.spec conf).detach_spec hs
  obtain ⟨k, hk, -, hsd, -⟩ := (n.spec conf).schedVcpuDetach_eq_some hs
  obtain rfl : i = k := Option.some.inj (hi.symm.trans hk)
  have hqueue : (n.queue s'.sd).Sublist ((n.queue s.sd).erase i) := hsd ▸ n.queue_detach conf i s
  have hmem : ∀ j, j ∈ s'.inflightEntries ↔ j ≠ i ∧ j ∈ s.inflightEntries := fun j => by
    rw [hdetach.inflight, h.entries.nodup.mem_erase_iff]
  refine ⟨⟨h.entries.detach hdetach, h.core.detach (n.spec conf) hs,
    (h.nodup.erase i).sublist hqueue, fun j hj => ?_, hnext.trans h.next⟩, ?_⟩
  · obtain ⟨hne, hj⟩ := h.nodup.mem_erase_iff.mp (hqueue.subset hj)
    exact (hmem j).mpr ⟨hne, h.queued j hj⟩
  · rw [CurrentAttached, hcurrent]
    by_cases hself : current = some v
    · rw [if_pos hself]
      exact iff_of_true (.inl rfl) fun hbad => hbad.2.2 hself
    · rw [if_neg hself, AttachedTo, hdetach.keepsEntries.findEntry]
      by_cases hv : s.currentVcpuid = v
      · rw [hv, hi]
        refine ⟨?_, fun hkeep => .inl ?_⟩
        · rintro (hinvalid | ⟨j, hj, hin⟩) ⟨-, hvalid, -⟩
          · exact hvalid hinvalid
          · exact ((hmem j).mp hin).1 (Option.some.inj hj).symm
        · exact not_not.mp fun hvalid => hkeep ⟨rfl, hvalid, hself⟩
      · refine iff_of_true (hcur.imp_right fun ⟨j, hj, hin⟩ => ⟨j, hj, (hmem j).mpr ⟨?_, hin⟩⟩)
          fun hbad => hv hbad.1
        rintro rfl
        exact hv ((findEntry_some hj).2.symm.trans (findEntry_some hi).2)

/-- Whom `do_schedule` makes the current one. -/
theorem currentVcpuid_prepareSwitch {ED SD : Type} {vmidOf : VcpuId → Option VmId} {next : VcpuId}
    {s : Scheduler ED SD} {r : Scheduler ED SD × Option (VcpuId × VcpuId)}
    (hr : prepareSwitch vmidOf (switchTo next s) = some r) :
    r.1.currentVcpuid = (if next = vcpuidInvalid then s.currentVcpuid else next) ∧
      r.1.nextVcpuid = vcpuidInvalid := by
  rw [prepareSwitch] at hr
  split at hr
  · rename_i hvalid
    obtain ⟨vmid, -, rfl⟩ := Option.map_eq_some_iff.mp hr
    exact ⟨(if_neg hvalid).symm, rfl⟩
  · rename_i hinvalid
    obtain rfl := Option.some.inj hr
    exact ⟨(if_pos (not_not.mp hinvalid)).symm, not_not.mp hinvalid⟩

/-- A call leaves the scheduler with somebody who is attached, unless it kept an entry that has been
detached. -/
theorem FlightInv.schedule (h : FlightInv n s) (hcur : CurrentAttached s)
    {vmidOf : VcpuId → Option VmId} {now expiration : U64}
    {r : Scheduler n.EntryData n.SchedData × Option (VcpuId × VcpuId)}
    (hr : scheduleNext (n.policy conf) vmidOf now expiration s = some r) :
    FlightInv n r.1 ∧ (CurrentAttached r.1 ↔ ¬ n.KeepsDetached s) := by
  obtain ⟨mid, hmid, hswitch⟩ := Option.bind_eq_some_iff.mp hr
  have htouches := (n.spec conf).schedule now expiration s mid hmid
  have hsame := prepareSwitch_sameEntries hswitch
  have hqueue : (n.queue r.1.sd).Perm (n.queue s.sd) := by
    rw [hsame.sd]
    exact PolicyName.queue_doSchedule hmid
  have hinflight : r.1.inflightEntries = s.inflightEntries :=
    hsame.inflight.trans htouches.inflight
  have hkeeps : KeepsEntries s r.1 := by
    refine ⟨hsame.standby.trans htouches.standby, fun i => ?_, fun i hi => ?_⟩
    · rw [hsame.entry]
      exact htouches.vcpuid i
    · rw [hsame.entry]
      exact htouches.state_ne hi
  obtain ⟨hcurrent, hnext⟩ := currentVcpuid_prepareSwitch hswitch
  have hattached : ∀ v, AttachedTo r.1 v ↔ AttachedTo s v := fun v => by
    rw [AttachedTo, AttachedTo, hkeeps.findEntry, hinflight]
  refine ⟨⟨h.entries.congr hkeeps hinflight (hsame.nrEntries.trans htouches.nrEntries),
    h.core.schedule (n.spec conf) hr, hqueue.nodup_iff.mpr h.nodup, fun i hi => ?_, hnext⟩, ?_⟩
  · rw [hinflight]
    exact h.queued i (hqueue.subset hi)
  · rw [CurrentAttached, hcurrent, hattached,
      PolicyName.doSchedule_keepsDetached h.core h.nodup h.queued hmid]
    by_cases hvalid : mid.2.1 = vcpuidInvalid
    · rw [if_pos hvalid, htouches.currentVcpuid]
      exact iff_of_true hcur fun hbad => hbad.1 hvalid
    · rw [if_neg hvalid, or_iff_right hvalid, not_and_not_right]
      exact ⟨fun hin _ => hin, fun hin => hin hvalid⟩

end

/-! ## All of them -/

/-- Every scheduler is in order and runs nobody or somebody who is attached to it. -/
def AllAttached (σ : System gPolicy) : Prop :=
  ∀ p, FlightInv (gPolicy p) (σ.sched p) ∧ CurrentAttached (σ.sched p)

variable {σ τ : System gPolicy} {e : SystemEvent}

theorem schedPerformSwitch_sched {cpu : PcpuId} {regs : Option CoreRegs}
    {r : System gPolicy × Option CoreRegs} (hr : schedPerformSwitch numLr cpu regs σ = some r) :
    ∃ s switch, prepareSwitch σ.vmidOf (σ.sched cpu) = some (s, switch) ∧
      r.1.sched = (σ.setSched cpu s).sched := by
  obtain ⟨⟨s, switch⟩, hprepare, hr⟩ := Option.bind_eq_some_iff.mp hr
  refine ⟨s, switch, hprepare, ?_⟩
  cases switch with
  | none =>
      obtain rfl := Option.some.inj hr
      rfl
  | some ids =>
      obtain ⟨m, -, hr⟩ := Option.bind_eq_some_iff.mp hr
      obtain rfl := Option.some.inj hr
      rfl

theorem System.setSched_setSched (σ : System gPolicy) (p : PcpuId)
    (s t : Scheduler (gPolicy p).EntryData (gPolicy p).SchedData) :
    (σ.setSched p s).setSched p t = σ.setSched p t := by
  simp only [setSched, Function.update_idem]

/-- A call of the policy and the switch after it, as they come to the scheduler. -/
theorem scheduleNext_of_performSwitch {cpu : PcpuId} {now expiration : U64}
    {mid : Scheduler (gPolicy cpu).EntryData (gPolicy cpu).SchedData × VcpuId × U64}
    (hmid : ((gPolicy cpu).policy conf).doSchedule now expiration (σ.sched cpu) = some mid)
    {regs : Option CoreRegs} {r : System gPolicy × Option CoreRegs}
    (hr : schedPerformSwitch numLr cpu regs (σ.setSched cpu (switchTo mid.2.1 mid.1)) = some r) :
    ∃ s switch, scheduleNext ((gPolicy cpu).policy conf) σ.vmidOf now expiration (σ.sched cpu) =
        some (s, switch) ∧ r.1.sched = (σ.setSched cpu s).sched := by
  obtain ⟨s, switch, hprepare, hsched⟩ := schedPerformSwitch_sched hr
  have hself : (σ.setSched cpu (switchTo mid.2.1 mid.1)).sched cpu = switchTo mid.2.1 mid.1 :=
    Function.update_self ..
  rw [hself] at hprepare
  rw [System.setSched_setSched] at hsched
  exact ⟨s, switch, by rw [scheduleNext, hmid]; exact hprepare, hsched⟩

/-- `do_schedule` and the last turn of the loop of `sched_start` are the same for the scheduler. -/
theorem AllAttached.call (h : AllAttached σ) {cpu : PcpuId} {now expiration : U64}
    {mid : Scheduler (gPolicy cpu).EntryData (gPolicy cpu).SchedData × VcpuId × U64}
    (hmid : ((gPolicy cpu).policy conf).doSchedule now expiration (σ.sched cpu) = some mid)
    {regs : Option CoreRegs} {r : System gPolicy × Option CoreRegs}
    (hr : schedPerformSwitch numLr cpu regs (σ.setSched cpu (switchTo mid.2.1 mid.1)) = some r) :
    ∃ s, r.1.sched = (σ.setSched cpu s).sched ∧ FlightInv (gPolicy cpu) s ∧
      (CurrentAttached s ↔ ¬ (gPolicy cpu).KeepsDetached (σ.sched cpu)) := by
  obtain ⟨s, switch, hnext, hsched⟩ := scheduleNext_of_performSwitch hmid hr
  exact ⟨s, hsched, (h cpu).1.schedule (h cpu).2 hnext⟩

/-- A step changes one scheduler, and leaves it with nobody or with somebody who is attached unless
it strands the one that it runs. -/
theorem AllAttached.step (h : AllAttached σ) (he : systemStep conf numLr σ e = some τ) :
    ∃ p s, τ.sched = (σ.setSched p s).sched ∧ FlightInv (gPolicy p) s ∧
      (CurrentAttached s ↔ ¬ StrandsCurrent σ e) ∧ ∀ cpu v q, e = .detach cpu v q → q = p := by
  have hsame : ∀ p, σ.sched = (σ.setSched p (σ.sched p)).sched := fun p =>
    (Function.update_eq_self p σ.sched).symm
  cases e with
  | register v p =>
      obtain rfl := Option.some.inj he
      obtain ⟨hinv, hcur⟩ := h p
      refine ⟨p, _, rfl, hinv.register conf v, iff_of_true (hcur.imp_right ?_) id, by simp⟩
      rintro ⟨i, hi, hin⟩
      exact ⟨i, hinv.core.findEntry_register hi, hin⟩
  | attach v p =>
      obtain rfl := Option.some.inj he
      obtain ⟨hinv, hcur⟩ := (h p).1.attach conf v p
      exact ⟨p, _, rfl, hinv, iff_of_true (hcur (h p).2) id, by simp⟩
  | detach cpu v p =>
      obtain ⟨s, hs, rfl⟩ := Option.map_eq_some_iff.mp he
      obtain ⟨hinv, hcur⟩ := (h p).1.detach (h p).2 hs
      refine ⟨p, s, rfl, hinv, hcur, fun _ _ _ heq => ?_⟩
      exact (SystemEvent.detach.inj heq).2.2.symm
  | start cpu now expiration =>
      obtain ⟨mid, hmid, hτ⟩ := Option.bind_eq_some_iff.mp he
      dsimp only at hτ
      split at hτ
      · rename_i hinvalid
        obtain rfl := Option.some.inj hτ
        have htouches := ((gPolicy cpu).spec conf).schedule now expiration _ mid hmid
        have hnext : mid.1.nextVcpuid = vcpuidInvalid := htouches.nextVcpuid.trans (h cpu).1.next
        have hswitch : scheduleNext ((gPolicy cpu).policy conf) σ.vmidOf now expiration
            (σ.sched cpu) = some (mid.1, none) := by
          rw [scheduleNext, hmid, Option.bind_some, hinvalid, ← hnext]
          exact if_neg (not_not.mpr hnext)
        exact ⟨cpu, mid.1, rfl, ((h cpu).1.schedule (h cpu).2 hswitch).1,
          ((h cpu).1.schedule (h cpu).2 hswitch).2, by simp⟩
      · obtain ⟨r, hr, rfl⟩ := Option.map_eq_some_iff.mp hτ
        obtain ⟨s, hsched, hinv, hcur⟩ := h.call hmid hr
        exact ⟨cpu, s, hsched, hinv, hcur, by simp⟩
  | schedule cpu regs now expiration =>
      obtain ⟨r, hr, rfl⟩ := Option.map_eq_some_iff.mp he
      obtain ⟨mid, hmid, hr⟩ := Option.bind_eq_some_iff.mp hr
      obtain ⟨s, hsched, hinv, hcur⟩ := h.call hmid hr
      exact ⟨cpu, s, hsched, hinv, hcur, by simp⟩
  | performSwitch cpu regs =>
      obtain ⟨r, hr, rfl⟩ := Option.map_eq_some_iff.mp he
      obtain ⟨s, switch, hprepare, hsched⟩ := schedPerformSwitch_sched hr
      rw [prepareSwitch, if_neg (not_not.mpr (h cpu).1.next)] at hprepare
      obtain ⟨rfl, -⟩ := Prod.mk.inj (Option.some.inj hprepare)
      exact ⟨cpu, _, hsched, (h cpu).1, iff_of_true (h cpu).2 id, by simp⟩
  | guest cpu g =>
      obtain rfl := Option.some.inj he
      exact ⟨cpu, _, hsame cpu, (h cpu).1, iff_of_true (h cpu).2 id, by simp⟩

theorem AllAttached.setSched (h : AllAttached σ) {p : PcpuId}
    {s : Scheduler (gPolicy p).EntryData (gPolicy p).SchedData} (hinv : FlightInv (gPolicy p) s)
    (hcur : CurrentAttached s) (hsched : τ.sched = (σ.setSched p s).sched) : AllAttached τ := by
  intro q
  by_cases hq : q = p
  · subst hq
    have hself : τ.sched q = s := by
      rw [hsched]
      exact Function.update_self ..
    rw [hself]
    exact ⟨hinv, hcur⟩
  · have hother : τ.sched q = σ.sched q := by
      rw [hsched]
      exact Function.update_of_ne hq ..
    rw [hother]
    exact h q

theorem allAttached_init (conf : SchedConf)
    (block : (p : PcpuId) → Scheduler (gPolicy p).EntryData (gPolicy p).SchedData)
    (hw : PcpuId → Hardware) (vcpus : VcpuId → Option Vcpu) (vms : VmId → Option Vmem) :
    AllAttached (System.init conf block hw vcpus vms) :=
  fun p => ⟨flightInv_schedInit conf (gPolicy p) p (block p), .inl rfl⟩

/-- Along a run every scheduler runs nobody or somebody who is attached to it, and a detachment
changes this for no other scheduler, exactly if no step strands the one that a scheduler runs. -/
theorem currentLaw_iff (conf : SchedConf) (numLr : ℕ)
    (block : (p : PcpuId) → Scheduler (gPolicy p).EntryData (gPolicy p).SchedData)
    (hw : PcpuId → Hardware) (vcpus : VcpuId → Option Vcpu) (vms : VmId → Option Vmem)
    {es : List SystemEvent} {τ : System gPolicy}
    (hrun : run (systemStep conf numLr) (System.init conf block hw vcpus vms) es = some τ) :
    Follows (systemStep conf numLr) CurrentLaw (System.init conf block hw vcpus vms) es ↔
      ¬ Happened (systemStep conf numLr) StrandsCurrent (System.init conf block hw vcpus vms)
        es := by
  refine follows_iff_not_happened hrun (allAttached_init conf block hw vcpus vms)
    (fun u e _ v hu he hv => ?_) fun u e _ v hu he hv hlaw => ?_
  · obtain ⟨p, s, hsched, hinv, hcur, hdetach⟩ := hu.step hv
    have hall := hu.setSched hinv (hcur.mpr he) hsched
    refine ⟨⟨fun q => (hall q).2, fun cpu w p' heq q hq => ?_⟩, hall⟩
    rw [hsched]
    rw [hdetach cpu w p' heq] at hq
    exact congrArg Scheduler.currentVcpuid (Function.update_of_ne hq ..)
  · obtain ⟨p, s, hsched, -, hcur, -⟩ := hu.step hv
    have hself : v.sched p = s := by
      rw [hsched]
      exact Function.update_self ..
    exact hcur.mp (hself ▸ hlaw.attached p) he

/-- Each of two processors runs a virtual processor of its own, and the second detaches that of the
first. -/
def detachFromOther : List SystemEvent :=
  [.register 0 0, .register 1 1, .attach 0 0, .attach 1 1, .schedule 0 none 0 0,
    .schedule 1 none 0 0, .detach 1 0 0]

theorem currentLaw_iff_detachFromOther :
    Follows (systemStep default 4) CurrentLaw twoVms detachFromOther ↔
      ¬ Happened (systemStep default 4) StrandsCurrent twoVms detachFromOther := by
  have hsome : (run (systemStep default 4) twoVms detachFromOther).isSome = true := rfl
  obtain ⟨τ, hτ⟩ := Option.isSome_iff_exists.mp hsome
  exact currentLaw_iff default 4 _ _ _ _ hτ

/-- The first scheduler still runs the virtual processor, which is not attached any more. -/
theorem detached_stays_current :
    ∃ τ, run (systemStep default 4) twoVms detachFromOther = some τ ∧
      (τ.sched 0).currentVcpuid = 0 ∧ ¬ AttachedTo (τ.sched 0) 0 ∧
      ¬ CurrentAttached (τ.sched 0) := by
  obtain ⟨τ, hτ, hcur, hflight⟩ : ∃ τ, run (systemStep default 4) twoVms detachFromOther = some τ ∧
      (τ.sched 0).currentVcpuid = 0 ∧ (τ.sched 0).inflightEntries = [] := ⟨_, rfl, rfl, rfl⟩
  have hnot : ¬ AttachedTo (τ.sched 0) 0 := by
    rintro ⟨i, -, hi⟩
    rw [hflight] at hi
    exact List.not_mem_nil hi
  refine ⟨τ, hτ, hcur, hnot, ?_⟩
  rw [CurrentAttached, hcur]
  rintro (hinvalid | hattached)
  · exact absurd hinvalid (by decide)
  · exact hnot hattached

end KHypervisor
