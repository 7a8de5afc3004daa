import KHypervisor.Sched.Scheduler

/-!
# What the core relies on

The core hands entries to a policy and gets them back from it, and a policy must not touch what is
the core's. `PolicySpec` says so; all three policies meet it. What follows from it is that a
scheduler knows no entries but those that have been attached (`CoreInv`).
-/

namespace KHypervisor

open Scheduler Run

variable {ED SD : Type}

/-- A policy keeps to its own data and to the states of the entries in `refs`, the ones it knows
of, and it comes to know of an entry only when that is attached. -/
structure PolicySpec (policy : SchedPolicy ED SD) (refs : SD → List EntryRef) : Prop where
  init : ∀ s, refs (policy.init s) = []
  attach : ∀ i s, Scheduler.Touches [] s (policy.attachVcpu i s)
  mem_attach : ∀ i s j, j ∈ refs (policy.attachVcpu i s).sd ↔ j ∈ refs s.sd ∨ j = i
  detach : ∀ i s, Scheduler.Touches [] s (policy.detachVcpu i s)
  mem_detach : ∀ i s, ∀ j ∈ refs (policy.detachVcpu i s).sd, j ∈ refs s.sd
  schedule : ∀ now expiration s r, policy.doSchedule now expiration s = some r →
    Scheduler.Touches (refs s.sd) s r.1
  mem_schedule : ∀ now expiration s r, policy.doSchedule now expiration s = some r →
    ∀ j ∈ refs r.1.sd, j ∈ refs s.sd

theorem schedRr_spec (conf : SchedConf) : PolicySpec (schedRr conf) SchedDataRr.refs where
  init _ := rfl
  attach _ _ := touches_setSd ..
  mem_attach i s j := by simp [schedRr, schedRrVcpuAttach, SchedDataRr.refs, or_assoc]
  detach _ _ := touches_setSd ..
  mem_detach i s j hj := by
    simp only [schedRr, schedRrVcpuDetach, setSd_sd, SchedDataRr.refs, Option.toList_none,
      List.nil_append] at hj
    exact List.mem_append_right _ (List.mem_of_mem_erase hj)
  schedule now expiration s r hr := by
    obtain ⟨s', v, expiration', heq, -, htouches⟩ := schedRrDoSchedule_some now expiration s
    obtain rfl : (s', v, expiration') = r := Option.some_injective _ (heq.symm.trans hr)
    exact htouches
  mem_schedule now expiration s r hr j hj := by
    obtain ⟨s', v, expiration', heq, hsd, -⟩ := schedRrDoSchedule_some now expiration s
    obtain rfl : (s', v, expiration') = r := Option.some_injective _ (heq.symm.trans hr)
    rw [hsd] at hj
    exact s.sd.rotate_perm.mem_iff.mp hj

/-- A policy with the data and the operations of the real-time policies. -/
theorem rt_spec {policy : SchedPolicy EntryDataRt SchedDataRt} {tick : PcpuId → U32}
    {key : EntryDataRt → U32} (hinit : policy.init = rtInit tick)
    (hattach : policy.attachVcpu = rtVcpuAttach) (hdetach : policy.detachVcpu = rtVcpuDetach)
    (hschedule : policy.doSchedule = rtDoSchedule key) : PolicySpec policy SchedDataRt.refs where
  init _ := by rw [hinit]; rfl
  attach i s := by
    rw [hattach]
    exact (touches_setEd ..).trans (touches_setSd ..)
  mem_attach i s j := by
    rw [hattach]
    simp [rtVcpuAttach, SchedDataRt.refs, or_assoc]
  detach i s := by
    rw [hdetach]
    exact touches_setSd ..
  mem_detach i s j hj := by
    rw [hdetach] at hj
    simp only [rtVcpuDetach, setSd_sd, SchedDataRt.refs, List.mem_append] at hj ⊢
    exact hj.imp_right List.mem_of_mem_erase
  schedule now expiration s r hr := by
    rw [hschedule] at hr
    exact (rtDoSchedule_touches hr).1
  mem_schedule now expiration s r hr j hj := by
    rw [hschedule] at hr
    obtain ⟨-, hqueue, next, hnext, hcur⟩ := rtDoSchedule_touches hr
    rw [SchedDataRt.refs, hcur, hqueue, List.mem_append, Option.mem_toList] at hj
    rcases hj with hj | hj
    · rw [Option.mem_some.mp hj] at hnext
      exact hnext
    · exact List.mem_append_right _ hj

theorem schedRtRm_spec (conf : SchedConf) : PolicySpec (schedRtRm conf) SchedDataRt.refs :=
  rt_spec rfl rfl rfl rfl

theorem schedRtEdf_spec (conf : SchedConf) : PolicySpec (schedRtEdf conf) SchedDataRt.refs :=
  rt_spec rfl rfl rfl rfl

/-- The policies that `schedconf_g_policy` can name. -/
inductive PolicyName
  | rr
  | rtRm
  | rtEdf

abbrev PolicyName.EntryData : PolicyName → Type
  | .rr => EntryDataRr
  | .rtRm => EntryDataRt
  | .rtEdf => EntryDataRt

abbrev PolicyName.SchedData : PolicyName → Type
  | .rr => SchedDataRr
  | .rtRm => SchedDataRt
  | .rtEdf => SchedDataRt

def PolicyName.policy (conf : SchedConf) : (n : PolicyName) → SchedPolicy n.EntryData n.SchedData
  | .rr => schedRr conf
  | .rtRm => schedRtRm conf
  | .rtEdf => schedRtEdf conf

def PolicyName.refs : (n : PolicyName) → n.SchedData → List EntryRef
  | .rr => SchedDataRr.refs
  | .rtRm => SchedDataRt.refs
  | .rtEdf => SchedDataRt.refs

theorem PolicyName.spec (conf : SchedConf) (n : PolicyName) :
    PolicySpec (n.policy conf) n.refs := by
  cases n with
  | rr => exact schedRr_spec conf
  | rtRm => exact schedRtRm_spec conf
  | rtEdf => exact schedRtEdf_spec conf

theorem PolicyName.picks (conf : SchedConf) (n : PolicyName) {now expiration : U64}
    {s : Scheduler n.EntryData n.SchedData} {r : Scheduler n.EntryData n.SchedData × VcpuId × U64}
    (h : (n.policy conf).doSchedule now expiration s = some r) :
    r.2.1 = vcpuidInvalid ∨ ∃ i ∈ n.refs s.sd, r.2.1 = (s.entry i).vcpuid := by
  obtain ⟨s', v, expiration'⟩ := r
  cases n with
  | rr => exact schedRrDoSchedule_picks h
  | rtRm => exact .inr (rtDoSchedule_picks h)
  | rtEdf => exact .inr (rtDoSchedule_picks h)

/-- From `s` to `s'` entry `i`, which was detached, has been attached. -/
structure Attaches (policy : SchedPolicy ED SD) (i : EntryRef) (s s' : Scheduler ED SD) :
    Prop where
  detached : (s.entry i).state = .detached
  vcpuid : ∀ j, (s'.entry j).vcpuid = (s.entry j).vcpuid
  state : ∀ j, (s'.entry j).state = if j = i then .waiting else (s.entry j).state
  standby : s'.standbyEntries = s.standbyEntries
  inflight : s'.inflightEntries = s.inflightEntries ++ [i]
  nrEntries : s'.nrEntries = s.nrEntries
  sd : s'.sd = (policy.attachVcpu i (s.setState i .waiting)).sd
  ed : ∀ j, (s'.entry j).ed = ((policy.attachVcpu i (s.setState i .waiting)).entry j).ed

variable {policy : SchedPolicy ED SD} {refs : SD → List EntryRef}

/-- An attachment fails and changes nothing, or it attaches the entry that is found. -/
theorem PolicySpec.schedVcpuAttach_cases (h : PolicySpec policy refs) {pcpu : PcpuId}
    (hpcpu : Succeeds pcpu) (v : VcpuId) (s : Scheduler ED SD) :
    (¬ Succeeds (schedVcpuAttach policy v pcpu s).2 ∧ (schedVcpuAttach policy v pcpu s).1 = s ∧
      ∀ i, findEntry s v = some i → (s.entry i).state ≠ .detached) ∨
    (Succeeds (schedVcpuAttach policy v pcpu s).2 ∧ ∃ i, findEntry s v = some i ∧
      Attaches policy i s (schedVcpuAttach policy v pcpu s).1) := by
  rw [schedVcpuAttach]
  cases hfind : findEntry s v with
  | none => exact .inl ⟨fun hs => hs.1 rfl, rfl, fun i hi => by simp at hi⟩
  | some i =>
      dsimp only
      by_cases hstate : (s.entry i).state ≠ .detached
      · rw [if_pos hstate]
        exact .inl ⟨fun hs => hs.2 rfl, rfl, fun j hj => by rwa [← Option.some_injective _ hj]⟩
      · rw [if_neg hstate]
        have hattach := h.attach i (s.setState i .waiting)
        refine .inr ⟨hpcpu, i, rfl, not_not.mp hstate, fun j => ?_, fun j => ?_, hattach.standby,
          ?_, hattach.nrEntries, rfl, fun _ => rfl⟩
        · exact (hattach.vcpuid j).trans (setState_vcpuid ..)
        · rcases hattach.state j with hsame | ⟨hmem, -⟩
          · exact hsame.trans (setState_state ..)
          · exact absurd hmem List.not_mem_nil
        · exact congrArg (· ++ [i]) hattach.inflight

theorem Attaches.findEntry {i : EntryRef} {s s' : Scheduler ED SD} (h : Attaches policy i s s')
    (v : VcpuId) : findEntry s' v = findEntry s v :=
  findEntry_congr h.standby (fun j _ => h.vcpuid j) v

/-- A detachment tells the policy and takes the entry that is found off the list. -/
theorem PolicySpec.schedVcpuDetach_eq_some (h : PolicySpec policy refs) {current : Option VcpuId}
    {v : VcpuId} {s s' : Scheduler ED SD} (hs : schedVcpuDetach policy current v s = some s') :
    ∃ i, findEntry s v = some i ∧ s'.entry = (policy.detachVcpu i s).entry ∧
      s'.sd = (policy.detachVcpu i s).sd ∧ s'.standbyEntries = s.standbyEntries ∧
      s'.inflightEntries = s.inflightEntries.erase i ∧ s'.nrEntries = s.nrEntries := by
  obtain ⟨i, hfind, hs⟩ := Option.bind_eq_some_iff.mp hs
  obtain ⟨c, -, hs⟩ := Option.bind_eq_some_iff.mp hs
  have hdetach := h.detach i s
  have hinflight := congrArg (List.erase · i) hdetach.inflight
  rw [Option.some.injEq] at hs
  rw [← hs]
  split <;> exact ⟨i, hfind, rfl, rfl, hdetach.standby, hinflight, hdetach.nrEntries⟩

/-- A call of the scheduler is a call of the policy and an exchange of the current processor. -/
theorem scheduleNext_eq_some {vmidOf : VcpuId → Option VmId} {now expiration : U64}
    {s : Scheduler ED SD} {r : Scheduler ED SD × Option (VcpuId × VcpuId)}
    (hr : scheduleNext policy vmidOf now expiration s = some r) :
    ∃ mid, policy.doSchedule now expiration s = some mid ∧ SameEntries mid.1 r.1 := by
  obtain ⟨mid, hmid, hswitch⟩ := Option.bind_eq_some_iff.mp hr
  obtain ⟨s', switch⟩ := r
  have hsame := prepareSwitch_sameEntries hswitch
  exact ⟨mid, hmid, hsame.entry, hsame.standby, hsame.inflight, hsame.nrEntries, hsame.sd⟩

theorem SameEntries.findEntry {s s' : Scheduler ED SD} (h : SameEntries s s') (v : VcpuId) :
    findEntry s' v = findEntry s v :=
  findEntry_congr h.standby (fun i _ => by rw [h.entry]) v

/-! ## The entries a scheduler knows -/

/-- The policy knows of no entries but those that are found by their numbers and are not in the
detached state. -/
structure CoreInv (refs : SD → List EntryRef) (s : Scheduler ED SD) : Prop where
  standby : ∀ i ∈ s.standbyEntries, i < s.nrEntries
  found : ∀ i ∈ refs s.sd, findEntry s (s.entry i).vcpuid = some i
  state : ∀ i ∈ refs s.sd, (s.entry i).state ≠ .detached

theorem CoreInv.lt_nrEntries {s : Scheduler ED SD} (h : CoreInv refs s) {i : EntryRef}
    (hi : i ∈ refs s.sd) : i < s.nrEntries :=
  h.standby i (findEntry_some (h.found i hi)).1

theorem CoreInv.findEntry_register {s : Scheduler ED SD} (h : CoreInv refs s) {v w : VcpuId}
    {i : EntryRef} (hi : findEntry s w = some i) :
    findEntry (schedVcpuRegister policy v s) w = some i := by
  rw [KHypervisor.findEntry_register policy v h.standby, hi, Option.some_or]

theorem CoreInv.register {s : Scheduler ED SD} (h : CoreInv refs s) (v : VcpuId) :
    CoreInv refs (schedVcpuRegister policy v s) := by
  refine ⟨fun i hi => ?_, fun i hi => ?_, fun i hi => ?_⟩
  · rcases List.mem_append.mp hi with hi | hi
    · exact Nat.lt_succ_of_lt (h.standby i hi)
    · rw [List.mem_singleton.mp hi]
      exact Nat.lt_succ_self _
  · rw [schedVcpuRegister_entry_of_lt policy v s (h.lt_nrEntries hi)]
    exact h.findEntry_register (h.found i hi)
  · rw [schedVcpuRegister_entry_of_lt policy v s (h.lt_nrEntries hi)]
    exact h.state i hi

theorem CoreInv.attach (hpolicy : PolicySpec policy refs) {s s' : Scheduler ED SD}
    (h : CoreInv refs s) {v : VcpuId} {i : EntryRef} (hfind : findEntry s v = some i)
    (hattach : Attaches policy i s s') : CoreInv refs s' := by
  have hmem : ∀ j, j ∈ refs s'.sd ↔ j ∈ refs s.sd ∨ j = i := fun j => by
    rw [hattach.sd]
    exact hpolicy.mem_attach i _ j
  refine ⟨fun j hj => ?_, fun j hj => ?_, fun j hj => ?_⟩
  · rw [hattach.nrEntries]
    exact h.standby j (hattach.standby ▸ hj)
  · rw [hattach.findEntry, hattach.vcpuid]
    rcases (hmem j).mp hj with hj | rfl
    · exact h.found j hj
    · rw [(findEntry_some hfind).2, hfind]
  · rw [hattach.state]
    by_cases hji : j = i
    · rw [if_pos hji]
      decide
    · rw [if_neg hji]
      exact h.state j (((hmem j).mp hj).resolve_right hji)

theorem CoreInv.detach (hpolicy : PolicySpec policy refs) {s s' : Scheduler ED SD}
    (h : CoreInv refs s) {current : Option VcpuId} {v : VcpuId}
    (hs : schedVcpuDetach policy current v s = some s') : CoreInv refs s' := by
  obtain ⟨i, -, hentry, hsd, hstandby, -, hnr⟩ := hpolicy.schedVcpuDetach_eq_some hs
  have htouches := hpolicy.detach i s
  have hmem : ∀ j ∈ refs s'.sd, j ∈ refs s.sd := fun j hj =>
    hpolicy.mem_detach i s j (hsd ▸ hj)
  have hvcpuid : ∀ j, (s'.entry j).vcpuid = (s.entry j).vcpuid := fun j => by
    rw [hentry, htouches.vcpuid]
  refine ⟨fun j hj => ?_, fun j hj => ?_, fun j hj => ?_⟩
  · rw [hnr]
    exact h.standby j (hstandby ▸ hj)
  · rw [findEntry_congr hstandby fun j _ => hvcpuid j, hvcpuid]
    exact h.found j (hmem j hj)
  · rw [hentry]
    exact htouches.state_ne (h.state j (hmem j hj))

theorem CoreInv.schedule (hpolicy : PolicySpec policy refs) {s : Scheduler ED SD}
    (h : CoreInv refs s) {vmidOf : VcpuId → Option VmId} {now expiration : U64}
    {r : Scheduler ED SD × Option (VcpuId × VcpuId)}
    (hr : scheduleNext policy vmidOf now expiration s = some r) : CoreInv refs r.1 := by
  obtain ⟨mid, hmid, hsame⟩ := scheduleNext_eq_some hr
  have htouches := hpolicy.schedule now expiration s mid hmid
  have hmem : ∀ j ∈ refs r.1.sd, j ∈ refs s.sd := fun j hj =>
    hpolicy.mem_schedule now expiration s mid hmid j (hsame.sd ▸ hj)
  refine ⟨fun j hj => ?_, fun j hj => ?_, fun j hj => ?_⟩
  · rw [hsame.nrEntries, htouches.nrEntries]
    exact h.standby j (by rwa [hsame.standby, htouches.standby] at hj)
  · rw [hsame.findEntry, htouches.findEntry, hsame.entry, htouches.vcpuid]
    exact h.found j (hmem j hj)
  · rw [hsame.entry]
    exact htouches.state_ne (h.state j (hmem j hj))

theorem CoreInv.step (hpolicy : PolicySpec policy refs) {pcpu : PcpuId} (hpcpu : Succeeds pcpu)
    {vmidOf : VcpuId → Option VmId} {t t' : SchedTrace ED SD} (h : CoreInv refs t.s)
    {e : SchedEvent} (he : schedStep policy pcpu vmidOf t e = some t') : CoreInv refs t'.s := by
  cases e with
  | register v =>
      obtain rfl := Option.some_injective _ he
      exact h.register v
  | attach v =>
      obtain rfl := Option.some_injective _ he
      rcases hpolicy.schedVcpuAttach_cases hpcpu v t.s with ⟨-, hs, -⟩ | ⟨-, i, hfind, hattach⟩
      · dsimp only
        rw [hs]
        exact h
      · exact h.attach hpolicy hfind hattach
  | detach current v =>
      obtain ⟨s', hs, rfl⟩ := Option.map_eq_some_iff.mp he
      exact h.detach hpolicy hs
  | schedule now expiration =>
      obtain ⟨r, hr, rfl⟩ := Option.map_eq_some_iff.mp he
      exact h.schedule hpolicy hr

theorem coreInv_freshTrace (hpolicy : PolicySpec policy refs) (pcpu : PcpuId)
    (block : Scheduler ED SD) : CoreInv refs (freshTrace policy pcpu block).s := by
  have hrefs : refs (freshTrace policy pcpu block).s.sd = [] := hpolicy.init block
  refine ⟨fun i hi => absurd hi List.not_mem_nil, fun i hi => ?_, fun i hi => ?_⟩
  · rw [hrefs] at hi
    exact absurd hi List.not_mem_nil
  · rw [hrefs] at hi
    exact absurd hi List.not_mem_nil

end KHypervisor
