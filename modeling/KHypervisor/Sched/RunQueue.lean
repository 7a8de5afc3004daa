import KHypervisor.Sched.Policy

/-!
# The run queue of the round-robin policy

An attached virtual processor waits in the run queue once, or it is the current one. A detachment
forgets the current entry, whoever is detached, and so this fails as soon as somebody is detached
while somebody else is current: `runqueue_exact_iff`.
-/

namespace KHypervisor

open Scheduler Run

abbrev SchedulerRr := Scheduler EntryDataRr SchedDataRr

/-- The virtual processor that is `sd->current`. -/
def runningVcpu (s : SchedulerRr) : Option VcpuId := s.sd.current.map fun i => (s.entry i).vcpuid

/-- The virtual processors in `sd->runqueue`. -/
def queuedVcpus (s : SchedulerRr) : List VcpuId := s.sd.runqueue.map fun i => (s.entry i).vcpuid

/-- The virtual processor is current, or it is in the queue once. -/
def InOnePlace (s : SchedulerRr) (v : VcpuId) : Prop :=
  (runningVcpu s = some v ∧ v ∉ queuedVcpus s) ∨
    (runningVcpu s ≠ some v ∧ (queuedVcpus s).count v = 1)

/-- The virtual processor is neither current nor in the queue. -/
def InNoPlace (s : SchedulerRr) (v : VcpuId) : Prop :=
  runningVcpu s ≠ some v ∧ v ∉ queuedVcpus s

/-- Who is attached is in one place, and who is not is in none. -/
def RunqueueExact (t : SchedTrace EntryDataRr SchedDataRr) : Prop :=
  ∀ v, (v ∈ t.attached → InOnePlace t.s v) ∧ (v ∉ t.attached → InNoPlace t.s v)

/-- The event detaches a virtual processor that is not attached. -/
def DetachesUnattached (t : SchedTrace EntryDataRr SchedDataRr) (e : SchedEvent) : Prop :=
  ∃ c v, e = .detach c v ∧ v ∉ t.attached

instance (t : SchedTrace EntryDataRr SchedDataRr) :
    (e : SchedEvent) → Decidable (DetachesUnattached t e)
  | .detach c v => decidable_of_iff (v ∉ t.attached) (by simp [DetachesUnattached])
  | .register _ | .attach _ | .schedule .. => isFalse (by simp [DetachesUnattached])

/-- The event detaches a virtual processor while another one is current. -/
def DetachesOther (t : SchedTrace EntryDataRr SchedDataRr) (e : SchedEvent) : Prop :=
  ∃ c v, e = .detach c v ∧ ∃ w, runningVcpu t.s = some w ∧ w ≠ v

/-- The attached virtual processors are those of the entries that the policy knows, each of which
it knows once. -/
structure RunqueueInv (t : SchedTrace EntryDataRr SchedDataRr) : Prop where
  core : CoreInv SchedDataRr.refs t.s
  nodup : t.s.sd.refs.Nodup
  attached : ∀ v, v ∈ t.attached ↔ ∃ i ∈ t.s.sd.refs, (t.s.entry i).vcpuid = v

theorem places_eq (s : SchedulerRr) :
    (runningVcpu s).toList ++ queuedVcpus s = s.sd.refs.map fun i => (s.entry i).vcpuid := by
  rw [runningVcpu, queuedVcpus, SchedDataRr.refs, List.map_append]
  cases s.sd.current <;> rfl

/-- Entries that are found by their numbers have different numbers. -/
theorem RunqueueInv.nodup_places {t : SchedTrace EntryDataRr SchedDataRr} (h : RunqueueInv t) :
    ((runningVcpu t.s).toList ++ queuedVcpus t.s).Nodup := by
  rw [places_eq]
  refine h.nodup.map_on fun i hi j hj hij => ?_
  have hfound := h.core.found i hi
  rw [hij, h.core.found j hj] at hfound
  exact (Option.some_injective _ hfound).symm

theorem RunqueueInv.mem_attached {t : SchedTrace EntryDataRr SchedDataRr} (h : RunqueueInv t)
    (v : VcpuId) : v ∈ t.attached ↔ runningVcpu t.s = some v ∨ v ∈ queuedVcpus t.s := by
  have hplaces := List.mem_map (b := v) (f := fun i => (t.s.entry i).vcpuid) (l := t.s.sd.refs)
  rw [← places_eq, List.mem_append, Option.mem_toList] at hplaces
  rw [h.attached, hplaces]

theorem RunqueueInv.exact {t : SchedTrace EntryDataRr SchedDataRr} (h : RunqueueInv t) :
    RunqueueExact t := by
  have hnodup := h.nodup_places
  intro v
  rw [h.mem_attached]
  refine ⟨fun hv => ?_, not_or.mp⟩
  by_cases hrunning : runningVcpu t.s = some v
  · rw [hrunning] at hnodup
    exact .inl ⟨hrunning, (List.nodup_cons.mp hnodup).1⟩
  · exact .inr ⟨hrunning, List.count_eq_one_of_mem (List.nodup_append.mp hnodup).2.1
      (hv.resolve_left hrunning)⟩

variable {conf : SchedConf} {pcpu : PcpuId} {vmidOf : VcpuId → Option VmId}
  {t t' : SchedTrace EntryDataRr SchedDataRr}

/-! ## One step -/

theorem RunqueueInv.register (h : RunqueueInv t) (v : VcpuId) :
    RunqueueInv { t with s := schedVcpuRegister (schedRr conf) v t.s } := by
  refine ⟨h.core.register v, h.nodup, fun w => ?_⟩
  rw [h.attached]
  refine exists_congr fun i => and_congr_right fun hi => ?_
  rw [schedVcpuRegister_entry_of_lt _ _ _ (h.core.lt_nrEntries hi)]

theorem RunqueueInv.attach (h : RunqueueInv t) {v : VcpuId} {i : EntryRef} {s' : SchedulerRr}
    (hfind : findEntry t.s v = some i) (hattach : Attaches (schedRr conf) i t.s s') :
    RunqueueInv ⟨s', insert v t.attached⟩ := by
  have hrefs : s'.sd.refs = t.s.sd.refs ++ [i] := by
    rw [hattach.sd]
    exact (List.append_assoc ..).symm
  have hnew : i ∉ t.s.sd.refs := fun hi => h.core.state i hi hattach.detached
  refine ⟨h.core.attach (schedRr_spec conf) hfind hattach, ?_, fun w => ?_⟩
  · rw [hrefs, List.nodup_append]
    refine ⟨h.nodup, List.nodup_singleton i, fun j hj k hk hjk => ?_⟩
    rw [List.mem_singleton.mp hk] at hjk
    exact hnew (hjk ▸ hj)
  · simp only [hrefs, hattach.vcpuid, Finset.mem_insert, List.mem_append, List.mem_singleton,
      or_and_right, exists_or, exists_eq_left, (findEntry_some hfind).2, h.attached w]
    rw [or_comm, @eq_comm _ v]

theorem RunqueueInv.schedule (h : RunqueueInv t) {now expiration : U64}
    {r : SchedulerRr × Option (VcpuId × VcpuId)}
    (hr : scheduleNext (schedRr conf) vmidOf now expiration t.s = some r) :
    RunqueueInv { t with s := r.1 } := by
  obtain ⟨mid, hmid, hsame⟩ := scheduleNext_eq_some hr
  obtain ⟨s', v, expiration', heq, hsd, htouches⟩ := schedRrDoSchedule_some now expiration t.s
  obtain rfl : (s', v, expiration') = mid := Option.some_injective _ (heq.symm.trans hmid)
  have hperm : r.1.sd.refs.Perm t.s.sd.refs := by
    rw [hsame.sd, hsd]
    exact t.s.sd.rotate_perm
  refine ⟨h.core.schedule (schedRr_spec conf) hr, hperm.nodup_iff.mpr h.nodup, fun w => ?_⟩
  rw [h.attached]
  refine exists_congr fun i => ?_
  rw [hperm.mem_iff, hsame.entry, htouches.vcpuid]

theorem refs_detach {c : Option VcpuId} {v : VcpuId} {s s' : SchedulerRr}
    (hs : schedVcpuDetach (schedRr conf) c v s = some s') :
    ∃ i, findEntry s v = some i ∧ s'.sd.current = none ∧
      s'.sd.runqueue = s.sd.runqueue.erase i ∧
      ∀ j, (s'.entry j).vcpuid = (s.entry j).vcpuid := by
  obtain ⟨i, hfind, hentry, hsd, -⟩ := (schedRr_spec conf).schedVcpuDetach_eq_some hs
  refine ⟨i, hfind, by rw [hsd]; rfl, by rw [hsd]; rfl, fun j => ?_⟩
  rw [hentry, ((schedRr_spec conf).detach i s).vcpuid]

/-- Detaching the current virtual processor, or any when none is current, takes it away. -/
theorem RunqueueInv.detach (h : RunqueueInv t) {c : Option VcpuId} {v : VcpuId}
    (hcur : ∀ w, runningVcpu t.s = some w → w = v) {s' : SchedulerRr}
    (hs : schedVcpuDetach (schedRr conf) c v t.s = some s') :
    RunqueueInv ⟨s', t.attached.erase v⟩ := by
  obtain ⟨i, hfind, hnone, hqueue, hvcpuid⟩ := refs_detach hs
  have hrefs : s'.sd.refs = t.s.sd.refs.erase i := by
    rw [SchedDataRr.refs, SchedDataRr.refs, hnone, hqueue]
    cases hcurrent : t.s.sd.current with
    | none => rfl
    | some cur =>
        -- The current entry is the one that is detached, so it is not in the queue.
        have hmem : cur ∈ t.s.sd.refs := by simp [SchedDataRr.refs, hcurrent]
        have hci : cur = i := by
          have hfound := h.core.found cur hmem
          rw [hcur (t.s.entry cur).vcpuid (by rw [runningVcpu, hcurrent]; rfl), hfind] at hfound
          exact (Option.some_injective _ hfound).symm
        have hnodup := h.nodup
        rw [SchedDataRr.refs, hcurrent, hci] at hnodup
        have hnot : i ∉ t.s.sd.runqueue := (List.nodup_cons.mp hnodup).1
        rw [hci, List.erase_of_not_mem hnot]
        exact (List.erase_cons_head i _).symm
  refine ⟨h.core.detach (schedRr_spec conf) hs, ?_, fun w => ?_⟩
  · rw [hrefs]
    exact h.nodup.erase i
  · simp only [hrefs, hvcpuid, Finset.mem_erase, h.attached w, h.nodup.mem_erase_iff]
    constructor
    · rintro ⟨hw, j, hj, rfl⟩
      refine ⟨j, ⟨fun hji => ?_, hj⟩, rfl⟩
      rw [hji] at hw
      exact hw (findEntry_some hfind).2
    · rintro ⟨j, ⟨hji, hj⟩, rfl⟩
      refine ⟨fun hjv => ?_, j, hj, rfl⟩
      have hfound := h.core.found j hj
      rw [hjv, hfind] at hfound
      exact hji (Option.some_injective _ hfound).symm

/-- Detaching another than the current virtual processor loses the current one. -/
theorem RunqueueInv.not_exact (h : RunqueueInv t) {c : Option VcpuId} {v w : VcpuId}
    (hcur : runningVcpu t.s = some w) (hw : w ≠ v) {s' : SchedulerRr}
    (hs : schedVcpuDetach (schedRr conf) c v t.s = some s') :
    ¬ RunqueueExact ⟨s', t.attached.erase v⟩ := by
  intro hexact
  obtain ⟨i, -, hnone, hqueue, hvcpuid⟩ := refs_detach hs
  have hattached : w ∈ t.attached := (h.mem_attached w).mpr (.inl hcur)
  have hnodup := h.nodup_places
  rw [hcur] at hnodup
  rcases (hexact w).1 (Finset.mem_erase.mpr ⟨hw, hattached⟩) with ⟨hplace, -⟩ | ⟨-, hcount⟩
  · rw [runningVcpu, hnone] at hplace
    simp at hplace
  · have hmem : w ∈ queuedVcpus s' := List.count_pos_iff.mp (by rw [hcount]; exact Nat.one_pos)
    simp only [queuedVcpus, hqueue, hvcpuid, List.mem_map] at hmem
    obtain ⟨j, hj, hjw⟩ := hmem
    exact (List.nodup_cons.mp hnodup).1
      (List.mem_map.mpr ⟨j, List.mem_of_mem_erase hj, hjw⟩)

theorem RunqueueInv.step (hpcpu : Succeeds pcpu) (h : RunqueueInv t) {e : SchedEvent}
    (he : schedStep (schedRr conf) pcpu vmidOf t e = some t') (hother : ¬ DetachesOther t e) :
    RunqueueInv t' := by
  cases e with
  | register v =>
      obtain rfl := Option.some_injective _ he
      exact h.register v
  | attach v =>
      obtain rfl := Option.some_injective _ he
      rcases (schedRr_spec conf).schedVcpuAttach_cases hpcpu v t.s with
        ⟨hfail, hs, -⟩ | ⟨hsucc, i, hfind, hattach⟩
      · rw [if_neg hfail, hs]
        exact h
      · rw [if_pos hsucc]
        exact h.attach hfind hattach
  | detach c v =>
      obtain ⟨s', hs, rfl⟩ := Option.map_eq_some_iff.mp he
      refine h.detach (fun w hw => ?_) hs
      exact not_not.mp fun hne => hother ⟨c, v, rfl, w, hw, hne⟩
  | schedule now expiration =>
      obtain ⟨r, hr, rfl⟩ := Option.map_eq_some_iff.mp he
      exact h.schedule hr

theorem runqueueInv_start (conf : SchedConf) (pcpu : PcpuId) (block : SchedulerRr) :
    RunqueueInv (freshTrace (schedRr conf) pcpu block) := by
  refine ⟨coreInv_freshTrace (schedRr_spec conf) pcpu block, List.nodup_nil, fun v => ?_⟩
  refine iff_of_false (Finset.notMem_empty v) ?_
  rintro ⟨i, hi, -⟩
  exact absurd hi List.not_mem_nil

/-! ## Runs -/

/-- Either nobody has been detached while somebody else was current and the queue has been exact
throughout, or it has been inexact since. -/
theorem runqueue_run (hpcpu : Succeeds pcpu) (block : SchedulerRr) {es : List SchedEvent}
    (hrun : run (schedStep (schedRr conf) pcpu vmidOf) (freshTrace (schedRr conf) pcpu block) es =
      some t) :
    let step := schedStep (schedRr conf) pcpu vmidOf
    let start := freshTrace (schedRr conf) pcpu block
    (¬ Happened step DetachesOther start es ∧ Always step RunqueueExact start es ∧
      RunqueueInv t) ∨
    (Happened step DetachesOther start es ∧ ¬ Always step RunqueueExact start es) := by
  intro step start
  refine run_induction (I := fun es t =>
    (¬ Happened step DetachesOther start es ∧ Always step RunqueueExact start es ∧ RunqueueInv t) ∨
    (Happened step DetachesOther start es ∧ ¬ Always step RunqueueExact start es)) ?_ ?_ hrun
  · have hstart := runqueueInv_start conf pcpu block
    exact .inl ⟨id, hstart.exact, hstart⟩
  · intro es e u v hu ih he
    rw [happened_concat hu, always_concat hu]
    rcases ih with ⟨hgood, halways, hinv⟩ | ⟨hbad, hnot⟩
    · by_cases hother : DetachesOther u e
      · refine .inr ⟨.inr hother, fun hall => ?_⟩
        obtain ⟨c, w, rfl, x, hcur, hne⟩ := hother
        obtain ⟨s', hs, rfl⟩ := Option.map_eq_some_iff.mp he
        exact hinv.not_exact hcur hne hs (hall.2 _ he)
      · have hnext := hinv.step hpcpu he hother
        refine .inl ⟨not_or.mpr ⟨hgood, hother⟩, ⟨halways, fun t ht => ?_⟩, hnext⟩
        rw [← Option.some_injective _ (he.symm.trans ht)]
        exact hnext.exact
    · exact .inr ⟨.inl hbad, fun hall => hnot hall.1⟩

/-- In any run, every attached virtual processor is in one place and no other is in any, at all
times, exactly if nobody is detached while somebody else is current. -/
theorem runqueue_exact_iff (conf : SchedConf) {pcpu : PcpuId} (hpcpu : pcpu < 254)
    (vmidOf : VcpuId → Option VmId) (block : SchedulerRr) {es : List SchedEvent}
    {t : SchedTrace EntryDataRr SchedDataRr}
    (hrun : run (schedStep (schedRr conf) pcpu vmidOf) (freshTrace (schedRr conf) pcpu block) es =
      some t) :
    Always (schedStep (schedRr conf) pcpu vmidOf) RunqueueExact
      (freshTrace (schedRr conf) pcpu block) es ↔
    ¬ Happened (schedStep (schedRr conf) pcpu vmidOf) DetachesOther
      (freshTrace (schedRr conf) pcpu block) es := by
  rcases runqueue_run (succeeds_of_lt hpcpu) block hrun with ⟨hgood, halways, -⟩ | ⟨hbad, hnot⟩
  · exact iff_of_true halways hgood
  · exact iff_of_false hnot (not_not.mpr hbad)

def detachWaiting : List SchedEvent :=
  [.register 0, .register 1, .attach 0, .attach 1, .schedule 0 0, .detach (some 0) 1]

theorem runqueue_exact_iff_detachWaiting :
    Always (schedStep (schedRr default) 0 fun _ => some 0) RunqueueExact
      (freshTrace (schedRr default) 0 default) detachWaiting ↔
    ¬ Happened (schedStep (schedRr default) 0 fun _ => some 0) DetachesOther
      (freshTrace (schedRr default) 0 default) detachWaiting :=
  runqueue_exact_iff default (by decide) (fun _ => some 0) default rfl

/-- The current virtual processor is in no place after the waiting one, which was attached, is
detached. -/
theorem runqueue_loses_current :
    ¬ Happened (schedStep (schedRr default) 0 fun _ => some 0) DetachesUnattached
        (freshTrace (schedRr default) 0 default) detachWaiting ∧
      ∃ t, run (schedStep (schedRr default) 0 fun _ => some 0)
          (freshTrace (schedRr default) 0 default) detachWaiting = some t ∧
        0 ∈ t.attached ∧ InNoPlace t.s 0 ∧ ¬ InOnePlace t.s 0 := by
  refine ⟨by decide, _, rfl, by decide, ⟨by decide, by decide⟩, ?_⟩
  rintro (⟨hrunning, -⟩ | ⟨-, hcount⟩)
  · exact absurd hrunning (by decide)
  · exact absurd hcount (by decide)

end KHypervisor
