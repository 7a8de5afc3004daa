import KHypervisor.Drivers.Sun4iDma
import KHypervisor.Sched.Entries
import KHypervisor.Sched.RunQueue

/-!
# The entries of a scheduler and the end of a copy

When the controller has nothing left to transfer, the handler of its interrupt registers and
attaches the first virtual processor at the first scheduler, whatever has become of it since the
copy began. Neither it nor `sched_vcpu_register` looks for an entry that is there.

In the runs in which they do not happen to find one, every scheduler has at most one entry for
everybody, and the end of a copy leaves the first virtual processor attached once:
`entriesLaw_iff`.
-/

namespace KHypervisor

open Scheduler Run

structure DmaSystem where
  dma : Dma
  sched : PcpuId → SchedulerRr

/-- A call. A detachment is executed by a processor of its own. -/
inductive DmaEvent
  | register (v : VcpuId) (p : PcpuId)
  | unregister (v : VcpuId) (p : PcpuId)
  | attach (v : VcpuId) (p : PcpuId)
  | detach (cpu : PcpuId) (v : VcpuId) (p : PcpuId)
  | schedule (p : PcpuId) (now expiration : U64)
  | dmaIrq

def DmaSystem.setSched (D : DmaSystem) (p : PcpuId) (s : SchedulerRr) : DmaSystem :=
  { D with sched := Function.update D.sched p s }

/-- The round-robin policy of the scheduler refers to no entry whose data it has freed. -/
def sparesFreedQueue (conf : SchedConf) (s : SchedulerRr) : Bool :=
  !queuesFreed (schedRr conf) SchedDataRr.refs s

/-- One call, with the round-robin policy everywhere. There is no result where it follows a null
pointer, or comes to a run queue with an entry whose data has been freed. -/
def dmaStep (malloc : ℕ → Bool) (conf : SchedConf) (vmidOf : VcpuId → Option VmId)
    (D : DmaSystem) : DmaEvent → Option DmaSystem
  | .register v p => some (D.setSched p (schedVcpuRegister (schedRr conf) v (D.sched p)))
  | .unregister v p => (schedVcpuUnregister v (D.sched p)).map (D.setSched p)
  | .attach v p =>
      if sparesFreedQueue conf (D.sched p) then
        some (D.setSched p (schedVcpuAttach (schedRr conf) v p (D.sched p)).1)
      else none
  | .detach cpu v p =>
      if sparesFreedQueue conf (D.sched p) then
        (schedVcpuDetach (schedRr conf) (D.sched cpu).currentVcpu v (D.sched p)).map (D.setSched p)
      else none
  | .schedule p now expiration =>
      if sparesFreedQueue conf (D.sched p) then
        (scheduleNext (schedRr conf) vmidOf now expiration (D.sched p)).map fun r =>
          D.setSched p r.1
      else none
  | .dmaIrq =>
      if !D.dma.transQueue.isEmpty || sparesFreedQueue conf (D.sched 0) then
        (dmaIrqHandler malloc (schedRr conf) D.dma (D.sched 0)).map fun r =>
          { D.setSched 0 r.2 with dma := r.1 }
      else none

/-- All schedulers after `sched_init`. -/
def dmaBoot (conf : SchedConf) (block : PcpuId → SchedulerRr) (dma : Dma) : DmaSystem :=
  ⟨dma, fun p => schedInit (schedRr conf) p (block p)⟩

/-! ## Who has entries -/

/-- Whom the entries of `standby_entries` are for. -/
def standbyVcpus (s : SchedulerRr) : List VcpuId := s.standbyEntries.map fun i => (s.entry i).vcpuid

/-- Whom the entries of `inflight_entries` are for. -/
def inflightVcpus (s : SchedulerRr) : List VcpuId :=
  s.inflightEntries.map fun i => (s.entry i).vcpuid

/-- The virtual processor is in flight once, and the policy knows it once. -/
def AttachedOnce (s : SchedulerRr) (v : VcpuId) : Prop :=
  (inflightVcpus s).count v = 1 ∧ ((runningVcpu s).toList ++ queuedVcpus s).count v = 1

/-- No scheduler has two entries for one virtual processor, and the interrupt at the end of a copy
leaves the first one attached to the first scheduler once. -/
def EntriesLaw (D : DmaSystem) (e : DmaEvent) (D' : DmaSystem) : Prop :=
  (∀ p, (standbyVcpus (D'.sched p)).Nodup) ∧
    (e = .dmaIrq → D.dma.transQueue.isEmpty = true → AttachedOnce (D'.sched 0) 0)

/-- Somebody is registered who has an entry already, or the end of a copy finds one of the first
virtual processor, or one that is still in flight. -/
def MeetsEntry (D : DmaSystem) : DmaEvent → Prop
  | .register v p => v ∈ standbyVcpus (D.sched p)
  | .dmaIrq => D.dma.transQueue.isEmpty = true ∧
      (0 ∈ standbyVcpus (D.sched 0) ∨ 0 ∈ inflightVcpus (D.sched 0))
  | .unregister .. | .attach .. | .detach .. | .schedule .. => False

/-! ## One scheduler -/

/-- Nobody has two entries, and the policy knows entries in flight, each once. -/
structure StandbyInv (s : SchedulerRr) : Prop where
  entries : EntriesInv s
  standby : (standbyVcpus s).Nodup
  nodup : s.sd.refs.Nodup
  known : ∀ i ∈ s.sd.refs, i ∈ s.inflightEntries

variable {malloc : ℕ → Bool} {conf : SchedConf} {vmidOf : VcpuId → Option VmId}
  {s s' : SchedulerRr} {v : VcpuId}

theorem standbyInv_schedInit (conf : SchedConf) (p : PcpuId) (block : SchedulerRr) :
    StandbyInv (schedInit (schedRr conf) p block) :=
  ⟨entriesInv_schedInit _ p block, List.nodup_nil, List.nodup_nil,
    fun _ hi => absurd hi List.not_mem_nil⟩

theorem standbyVcpus_register (conf : SchedConf) (h : EntriesInv s) (v : VcpuId) :
    standbyVcpus (schedVcpuRegister (schedRr conf) v s) = standbyVcpus s ++ [v] := by
  have hold : s.standbyEntries.map (fun i =>
      ((schedVcpuRegister (schedRr conf) v s).entry i).vcpuid) = standbyVcpus s :=
    List.map_congr_left fun i hi => by rw [schedVcpuRegister_entry_of_lt _ v s (h.standby i hi)]
  rw [← hold]
  refine List.map_append.trans (congrArg _ ?_)
  rw [List.map_singleton, schedVcpuRegister_entry_self]

theorem inflightVcpus_register (conf : SchedConf) (h : EntriesInv s) (v : VcpuId) :
    inflightVcpus (schedVcpuRegister (schedRr conf) v s) = inflightVcpus s :=
  List.map_congr_left fun i hi => by rw [schedVcpuRegister_entry_of_lt _ v s (h.inflight i hi)]

theorem KeepsEntries.standbyVcpus (h : KeepsEntries s s') : standbyVcpus s' = standbyVcpus s := by
  rw [KHypervisor.standbyVcpus, KHypervisor.standbyVcpus, h.standby]
  exact List.map_congr_left fun i _ => h.vcpuid i

theorem StandbyInv.register (h : StandbyInv s) (hv : v ∉ standbyVcpus s) :
    StandbyInv (schedVcpuRegister (schedRr conf) v s) := by
  refine ⟨h.entries.register _ v, ?_, h.nodup, h.known⟩
  rw [standbyVcpus_register conf h.entries, ← List.concat_eq_append]
  exact h.standby.concat hv

theorem StandbyInv.unregister (h : StandbyInv s) (hs : schedVcpuUnregister v s = some s') :
    StandbyInv s' := by
  have hentries := h.entries.unlist (unlists_schedVcpuUnregister hs)
  obtain ⟨i, -, rfl⟩ : ∃ i, findEntry s v = some i ∧
      { s with standbyEntries := s.standbyEntries.erase i } = s' := by
    obtain ⟨i, hi, hs⟩ := Option.bind_eq_some_iff.mp hs
    exact ⟨i, hi, Option.some.inj hs⟩
  exact ⟨hentries, h.standby.sublist (List.erase_sublist.map _), h.nodup, h.known⟩

theorem refs_attach {i : EntryRef} (hattach : Attaches (schedRr conf) i s s') :
    s'.sd.refs = s.sd.refs ++ [i] := by
  rw [hattach.sd]
  exact (List.append_assoc ..).symm

theorem StandbyInv.attaches (h : StandbyInv s) {i : EntryRef} (hfind : findEntry s v = some i)
    (hattach : Attaches (schedRr conf) i s s') : StandbyInv s' := by
  refine ⟨h.entries.attach hfind hattach, ?_, ?_, fun j hj => ?_⟩
  · rw [hattach.keepsEntries.standbyVcpus]
    exact h.standby
  · rw [refs_attach hattach, ← List.concat_eq_append]
    exact h.nodup.concat fun hi => h.entries.state i (h.known i hi) hattach.detached
  · rw [refs_attach hattach] at hj
    rw [hattach.inflight]
    rcases List.mem_append.mp hj with hj | hj
    · exact List.mem_append_left _ (h.known j hj)
    · exact List.mem_append_right _ hj

theorem StandbyInv.attach (h : StandbyInv s) (v : VcpuId) (p : PcpuId) :
    StandbyInv (schedVcpuAttach (schedRr conf) v p s).1 := by
  rcases (schedRr_spec conf).attach_cases v p s with ⟨hsame, -⟩ | ⟨i, hfind, hattach, -⟩
  · rwa [hsame]
  · exact h.attaches hfind hattach

theorem StandbyInv.detach (h : StandbyInv s) {c : Option VcpuId}
    (hs : schedVcpuDetach (schedRr conf) c v s = some s') : StandbyInv s' := by
  obtain ⟨i, hfind, hdetach⟩ := (schedRr_spec conf).detach_spec hs
  obtain ⟨j, hfind', hnone, hqueue, -⟩ := refs_detach hs
  obtain rfl : i = j := Option.some.inj (hfind.symm.trans hfind')
  have hrunqueue : s.sd.runqueue.Nodup := (List.nodup_append.mp h.nodup).2.1
  have hrefs : s'.sd.refs = s.sd.runqueue.erase i := by
    rw [SchedDataRr.refs, hnone, hqueue]
    rfl
  refine ⟨h.entries.detach hdetach, ?_, ?_, fun j hj => ?_⟩
  · rw [hdetach.keepsEntries.standbyVcpus]
    exact h.standby
  · rw [hrefs]
    exact hrunqueue.erase i
  · rw [hrefs, hrunqueue.mem_erase_iff] at hj
    rw [hdetach.inflight, h.entries.nodup.mem_erase_iff]
    exact ⟨hj.1, h.known j (List.mem_append_right _ hj.2)⟩

theorem StandbyInv.schedule (h : StandbyInv s) {now expiration : U64}
    {r : SchedulerRr × Option (VcpuId × VcpuId)}
    (hr : scheduleNext (schedRr conf) vmidOf now expiration s = some r) : StandbyInv r.1 := by
  obtain ⟨mid, hmid, hsame⟩ := scheduleNext_eq_some hr
  obtain ⟨s', w, expiration', heq, hsd, htouches⟩ := schedRrDoSchedule_some now expiration s
  obtain rfl : (s', w, expiration') = mid := Option.some_injective _ (heq.symm.trans hmid)
  have hperm : r.1.sd.refs.Perm s.sd.refs := by
    rw [hsame.sd, hsd]
    exact s.sd.rotate_perm
  have hkeeps : KeepsEntries s r.1 := by
    refine ⟨hsame.standby.trans htouches.standby, fun i => ?_, fun i hi => ?_⟩
    · rw [hsame.entry, htouches.vcpuid]
    · rw [hsame.entry]
      exact htouches.state_ne hi
  have hinflight : r.1.inflightEntries = s.inflightEntries :=
    hsame.inflight.trans htouches.inflight
  refine ⟨h.entries.congr hkeeps hinflight (hsame.nrEntries.trans htouches.nrEntries), ?_, ?_,
    fun i hi => ?_⟩
  · rw [hkeeps.standbyVcpus]
    exact h.standby
  · exact hperm.nodup_iff.mpr h.nodup
  · rw [hinflight]
    exact h.known i (hperm.mem_iff.mp hi)

/-! ## The end of a copy -/

def putVcpuBack (conf : SchedConf) (s : SchedulerRr) : SchedulerRr :=
  (schedVcpuAttach (schedRr conf) 0 0 (schedVcpuRegister (schedRr conf) 0 s)).1

theorem standbyVcpus_putVcpuBack (h : EntriesInv s) :
    standbyVcpus (putVcpuBack conf s) = standbyVcpus s ++ [0] := by
  rw [← standbyVcpus_register conf h, putVcpuBack]
  rcases (schedRr_spec conf).attach_cases 0 0 (schedVcpuRegister (schedRr conf) 0 s) with
    ⟨hsame, -⟩ | ⟨i, -, hattach, -⟩
  · rw [hsame]
  · exact hattach.keepsEntries.standbyVcpus

/-- Where nobody has an entry of the first virtual processor, the new one is attached. -/
theorem putVcpuBack_attaches (conf : SchedConf) (h : EntriesInv s) (hnew : 0 ∉ standbyVcpus s) :
    findEntry (schedVcpuRegister (schedRr conf) 0 s) 0 = some s.nrEntries ∧
      Attaches (schedRr conf) s.nrEntries (schedVcpuRegister (schedRr conf) 0 s)
        (putVcpuBack conf s) := by
  have hnone : findEntry s 0 = none := by
    rw [findEntry, List.find?_eq_none]
    intro i hi
    simp only [decide_eq_true_eq]
    exact fun hzero => hnew (List.mem_map.mpr ⟨i, hi, hzero⟩)
  have hfind : findEntry (schedVcpuRegister (schedRr conf) 0 s) 0 = some s.nrEntries := by
    rw [findEntry_register _ 0 h.standby, hnone, if_pos rfl, Option.none_or]
  refine ⟨hfind, ?_⟩
  rcases (schedRr_spec conf).attach_cases 0 0 (schedVcpuRegister (schedRr conf) 0 s) with
    ⟨-, hstate⟩ | ⟨i, hi, hattach, -⟩
  · refine absurd ?_ (hstate _ hfind)
    rw [schedVcpuRegister_entry_self]
  · rw [hfind, Option.some.injEq] at hi
    rwa [hi]

theorem inflightVcpus_putVcpuBack (h : EntriesInv s) (hnew : 0 ∉ standbyVcpus s) :
    inflightVcpus (putVcpuBack conf s) = inflightVcpus s ++ [0] := by
  obtain ⟨hfind, hattach⟩ := putVcpuBack_attaches conf h hnew
  have hzero := (findEntry_some hfind).2
  rw [← inflightVcpus_register conf h 0, inflightVcpus, inflightVcpus, hattach.inflight]
  simp only [hattach.vcpuid, List.map_append, List.map_singleton, hzero]

theorem StandbyInv.putVcpuBack (h : StandbyInv s) (hnew : 0 ∉ standbyVcpus s) :
    StandbyInv (putVcpuBack conf s) :=
  (h.register hnew).attach 0 0

/-- Where there is no entry of it in flight either, it is attached once. -/
theorem attachedOnce_putVcpuBack (h : StandbyInv s) (hnew : 0 ∉ standbyVcpus s)
    (hinflight : 0 ∉ inflightVcpus s) : AttachedOnce (putVcpuBack conf s) 0 := by
  obtain ⟨hfind, hattach⟩ := putVcpuBack_attaches conf h.entries hnew
  constructor
  · rw [inflightVcpus_putVcpuBack h.entries hnew, List.count_append,
      List.count_eq_zero_of_not_mem hinflight]
    rfl
  · have hold : 0 ∉ s.sd.refs.map fun i =>
        ((schedVcpuRegister (schedRr conf) 0 s).entry i).vcpuid := by
      rw [← inflightVcpus_register conf h.entries 0] at hinflight
      refine fun hmem => hinflight ?_
      obtain ⟨i, hi, hzero⟩ := List.mem_map.mp hmem
      exact List.mem_map.mpr ⟨i, h.known i hi, hzero⟩
    rw [places_eq, refs_attach hattach]
    simp only [hattach.vcpuid]
    rw [List.map_append, List.count_append]
    refine (congrArg (· + _) (List.count_eq_zero_of_not_mem hold)).trans ?_
    rw [List.map_singleton, (findEntry_some hfind).2]
    rfl

/-! ## Runs -/

variable {D D' : DmaSystem} {e : DmaEvent}

theorem DmaSystem.setSched_sched (D : DmaSystem) (p : PcpuId) (s : SchedulerRr) :
    (D.setSched p s).sched = Function.update D.sched p s := rfl

theorem DmaSystem.forall_setSched {P : SchedulerRr → Prop} (h : ∀ p, P (D.sched p)) {p : PcpuId}
    (hs : P s) (q : PcpuId) : P ((D.setSched p s).sched q) := by
  rw [setSched_sched]
  by_cases hq : q = p
  · rw [hq, Function.update_self]
    exact hs
  · rw [Function.update_of_ne hq]
    exact h q

/-- An interrupt with transfers left leaves the schedulers alone; the last one puts the first
virtual processor back. -/
theorem dmaStep_dmaIrq (hD' : dmaStep malloc conf vmidOf D .dmaIrq = some D') :
    (D.dma.transQueue.isEmpty = false ∧ D'.sched = D.sched) ∨
      (D.dma.transQueue.isEmpty = true ∧
        D'.sched = Function.update D.sched 0 (putVcpuBack conf (D.sched 0))) := by
  obtain ⟨r, hr, rfl⟩ := Option.map_eq_some_iff.mp (Option.ite_none_right_eq_some.mp hD').2
  rw [dmaIrqHandler] at hr
  cases hempty : D.dma.transQueue.isEmpty with
  | false =>
      rw [hempty, if_pos Bool.false_ne_true] at hr
      obtain ⟨x, -, hr⟩ := Option.bind_eq_some_iff.mp hr
      refine .inl ⟨rfl, ?_⟩
      rw [← Option.some.inj hr]
      exact Function.update_eq_self 0 D.sched
  | true =>
      rw [hempty, if_neg (not_not.mpr rfl)] at hr
      refine .inr ⟨rfl, ?_⟩
      rw [← Option.some.inj hr]
      rfl

theorem standbyInv_dmaBoot (conf : SchedConf) (block : PcpuId → SchedulerRr) (dma : Dma)
    (p : PcpuId) : StandbyInv ((dmaBoot conf block dma).sched p) :=
  standbyInv_schedInit conf p (block p)

theorem dmaStep_good (h : ∀ p, StandbyInv (D.sched p)) (he : ¬ MeetsEntry D e)
    (hD' : dmaStep malloc conf vmidOf D e = some D') :
    EntriesLaw D e D' ∧ ∀ p, StandbyInv (D'.sched p) := by
  have hlaw : (∀ p, StandbyInv (D'.sched p)) → e ≠ .dmaIrq →
      EntriesLaw D e D' ∧ ∀ p, StandbyInv (D'.sched p) := fun hinv hne =>
    ⟨⟨fun p => (hinv p).standby, fun hirq => absurd hirq hne⟩, hinv⟩
  cases e with
  | register v p =>
      obtain rfl := Option.some.inj hD'
      exact hlaw (DmaSystem.forall_setSched h ((h p).register he)) nofun
  | unregister v p =>
      obtain ⟨s', hs, rfl⟩ := Option.map_eq_some_iff.mp hD'
      exact hlaw (DmaSystem.forall_setSched h ((h p).unregister hs)) nofun
  | attach v p =>
      obtain rfl := Option.some.inj (Option.ite_none_right_eq_some.mp hD').2
      exact hlaw (DmaSystem.forall_setSched h ((h p).attach v p)) nofun
  | detach cpu v p =>
      obtain ⟨s', hs, rfl⟩ := Option.map_eq_some_iff.mp (Option.ite_none_right_eq_some.mp hD').2
      exact hlaw (DmaSystem.forall_setSched h ((h p).detach hs)) nofun
  | schedule p now expiration =>
      obtain ⟨r, hr, rfl⟩ := Option.map_eq_some_iff.mp (Option.ite_none_right_eq_some.mp hD').2
      exact hlaw (DmaSystem.forall_setSched h ((h p).schedule hr)) nofun
  | dmaIrq =>
      rcases dmaStep_dmaIrq hD' with ⟨hempty, hsched⟩ | ⟨hempty, hsched⟩
      · have hinv : ∀ p, StandbyInv (D'.sched p) := fun p => hsched ▸ h p
        refine ⟨⟨fun p => (hinv p).standby, fun _ htrue => ?_⟩, hinv⟩
        exact absurd (htrue.symm.trans hempty) (by decide)
      · obtain ⟨hstandby, hinflight⟩ := not_or.mp fun hor => he ⟨hempty, hor⟩
        have hinv : ∀ p, StandbyInv (D'.sched p) := by
          rw [hsched]
          exact DmaSystem.forall_setSched h ((h 0).putVcpuBack hstandby)
        refine ⟨⟨fun p => (hinv p).standby, fun _ _ => ?_⟩, hinv⟩
        rw [hsched, Function.update_self]
        exact attachedOnce_putVcpuBack (h 0) hstandby hinflight

theorem dmaStep_bad (h : ∀ p, StandbyInv (D.sched p)) (he : MeetsEntry D e)
    (hD' : dmaStep malloc conf vmidOf D e = some D') : ¬ EntriesLaw D e D' := by
  have htwice : ∀ {l : List VcpuId} {v}, v ∈ l → ¬ (l ++ [v]).Nodup := fun hv hnodup =>
    List.disjoint_of_nodup_append hnodup hv (List.mem_singleton_self _)
  rintro ⟨hstandby, honce⟩
  cases e with
  | register v p =>
      obtain rfl := Option.some.inj hD'
      have hnodup := hstandby p
      rw [DmaSystem.setSched_sched, Function.update_self,
        standbyVcpus_register conf (h p).entries] at hnodup
      exact htwice he hnodup
  | dmaIrq =>
      obtain ⟨hempty, hmeets⟩ := he
      rcases dmaStep_dmaIrq hD' with ⟨hfalse, -⟩ | ⟨-, hsched⟩
      · exact absurd (hempty.symm.trans hfalse) (by decide)
      have hzero : D'.sched 0 = putVcpuBack conf (D.sched 0) := by
        rw [hsched, Function.update_self]
      have hnodup := hstandby 0
      rw [hzero, standbyVcpus_putVcpuBack (h 0).entries] at hnodup
      have hnew : 0 ∉ standbyVcpus (D.sched 0) := fun hmem => htwice hmem hnodup
      have hcount := (honce rfl hempty).1
      rw [hzero, inflightVcpus_putVcpuBack (h 0).entries hnew, List.count_append,
        List.count_singleton_self] at hcount
      have hpos := List.count_pos_iff.mpr (hmeets.resolve_left hnew)
      omega
  | unregister => exact he
  | attach => exact he
  | detach => exact he
  | schedule => exact he

/-- Along a run nobody has two entries and every copy ends with the first virtual processor attached
once, exactly if no call meets an entry that is there. -/
theorem entriesLaw_iff (malloc : ℕ → Bool) (conf : SchedConf) (vmidOf : VcpuId → Option VmId)
    (block : PcpuId → SchedulerRr) (dma : Dma) (es : List DmaEvent) {D : DmaSystem}
    (hrun : run (dmaStep malloc conf vmidOf) (dmaBoot conf block dma) es = some D) :
    Follows (dmaStep malloc conf vmidOf) EntriesLaw (dmaBoot conf block dma) es ↔
      ¬ Happened (dmaStep malloc conf vmidOf) MeetsEntry (dmaBoot conf block dma) es :=
  follows_iff_not_happened (I := fun D => ∀ p, StandbyInv (D.sched p)) hrun
    (standbyInv_dmaBoot conf block dma) (fun _ _ _ _ h he hD' => dmaStep_good h he hD')
    fun _ _ _ _ h he hD' => dmaStep_bad h he hD'

/-- Every `malloc` succeeds, and no machine is there. -/
abbrev sampleDmaStep := dmaStep (fun _ => true) default fun _ => none

/-- All schedulers after `sched_init`, and a controller with nothing to do. -/
def sampleDmaBoot : DmaSystem := dmaBoot default (fun _ => default) idleDma

/-- The first virtual processor is unregistered before the copy and put back after it. -/
theorem entriesLaw_iff_unregistered :
    Follows sampleDmaStep EntriesLaw sampleDmaBoot
        [.register 0 0, .register 1 0, .unregister 0 0, .dmaIrq] ↔
      ¬ Happened sampleDmaStep MeetsEntry sampleDmaBoot
        [.register 0 0, .register 1 0, .unregister 0 0, .dmaIrq] :=
  entriesLaw_iff (fun _ => true) default (fun _ => none) (fun _ => default) idleDma _ rfl

/-- The first virtual processor is attached when the copy ends: it gets a second entry. Where it
was lost by a detachment of another one, and unregistered, it is attached twice. -/
theorem dmaIrq_registers_twice :
    (∃ D, run sampleDmaStep sampleDmaBoot [.register 0 0, .attach 0 0, .dmaIrq] = some D ∧
      standbyVcpus (D.sched 0) = [0, 0]) ∧
    (∃ D, run (dmaStep (fun _ => true) default fun _ => some 0) sampleDmaBoot
        [.register 0 0, .attach 0 0, .register 1 0, .attach 1 0, .schedule 0 0 0, .detach 0 1 0,
          .unregister 0 0, .dmaIrq] = some D ∧ inflightVcpus (D.sched 0) = [0, 0]) ∧
    ¬ Follows sampleDmaStep EntriesLaw sampleDmaBoot [.register 0 0, .attach 0 0, .dmaIrq] := by
  refine ⟨⟨_, rfl, rfl⟩, ⟨_, rfl, rfl⟩, ?_⟩
  rintro ⟨D₁, hD₁, -, D₂, hD₂, -, D₃, hD₃, ⟨hstandby, -⟩, -⟩
  obtain rfl := Option.some.inj hD₁
  obtain rfl := Option.some.inj hD₂
  obtain rfl := Option.some.inj hD₃
  exact absurd (hstandby 0) (by decide)

end KHypervisor
