import KHypervisor.Sched.Policy

/-!
# The entries in flight

What an operation leaves of the entries of a scheduler and of its current virtual processor, for
any policy. An entry is in flight at most once, and no entry in flight is in the detached state
(`EntriesInv`); nothing here relies on what the policy knows.
-/

namespace KHypervisor

open Scheduler

variable {ED SD : Type} {policy : SchedPolicy ED SD} {refs : SD → List EntryRef}
  {s s' : Scheduler ED SD} {v : VcpuId} {i : EntryRef}

theorem SameCurrent.refl (s : Scheduler ED SD) : SameCurrent s s := ⟨rfl, rfl, rfl⟩

theorem SameCurrent.trans {s'' : Scheduler ED SD} (h : SameCurrent s s') (h' : SameCurrent s' s'') :
    SameCurrent s s'' :=
  ⟨h'.currentVcpuid.trans h.currentVcpuid, h'.currentVcpu.trans h.currentVcpu,
    h'.currentVm.trans h.currentVm⟩

theorem Scheduler.Touches.sameCurrent {active : List EntryRef} (h : Scheduler.Touches active s s') :
    SameCurrent s s' :=
  ⟨h.currentVcpuid, h.currentVcpu, h.currentVm⟩

/-! ## The operations -/

/-- Whatever number an attachment would return, it changes nothing or attaches the entry that is
found. -/
theorem PolicySpec.attach_cases (h : PolicySpec policy refs) (v : VcpuId) (p : PcpuId)
    (s : Scheduler ED SD) :
    ((schedVcpuAttach policy v p s).1 = s ∧
      ∀ i, findEntry s v = some i → (s.entry i).state ≠ .detached) ∨
    ∃ i, findEntry s v = some i ∧ Attaches policy i s (schedVcpuAttach policy v p s).1 ∧
      SameCurrent s (schedVcpuAttach policy v p s).1 := by
  have hnumber : (schedVcpuAttach policy v p s).1 = (schedVcpuAttach policy v 0 s).1 := by
    rw [schedVcpuAttach, schedVcpuAttach]
    cases findEntry s v with
    | none => rfl
    | some i => dsimp only; split <;> rfl
  rw [hnumber]
  have hzero : Succeeds 0 := succeeds_of_lt (by decide)
  rcases h.schedVcpuAttach_cases hzero v s with
    ⟨-, hsame, hstate⟩ | ⟨-, i, hi, hattach⟩
  · exact .inl ⟨hsame, hstate⟩
  · refine .inr ⟨i, hi, hattach, ?_⟩
    have htouches := h.attach i (s.setState i .waiting)
    rw [schedVcpuAttach, hi]
    dsimp only
    rw [if_neg (not_not.mpr hattach.detached)]
    exact ⟨htouches.currentVcpuid, htouches.currentVcpu, htouches.currentVm⟩

/-- From `s` to `s'` entry `i` has been taken out of flight. -/
structure Detaches (refs : SD → List EntryRef) (i : EntryRef) (s s' : Scheduler ED SD) : Prop where
  vcpuid : ∀ j, (s'.entry j).vcpuid = (s.entry j).vcpuid
  state : ∀ j, (s'.entry j).state = (s.entry j).state
  standby : s'.standbyEntries = s.standbyEntries
  inflight : s'.inflightEntries = s.inflightEntries.erase i
  nrEntries : s'.nrEntries = s.nrEntries
  known : ∀ j ∈ refs s'.sd, j ∈ refs s.sd
  currentVcpuid : s'.currentVcpuid = s.currentVcpuid ∨ s'.currentVcpuid = vcpuidInvalid
  currentVcpu : s'.currentVcpu = s.currentVcpu
  currentVm : s'.currentVm = s.currentVm

theorem PolicySpec.detach_spec (h : PolicySpec policy refs) {current : Option VcpuId}
    (hs : schedVcpuDetach policy current v s = some s') :
    ∃ i, findEntry s v = some i ∧ Detaches refs i s s' := by
  obtain ⟨i, hi, hs⟩ := Option.bind_eq_some_iff.mp hs
  obtain ⟨c, -, hs⟩ := Option.bind_eq_some_iff.mp hs
  have hdetach := h.detach i s
  have hstate : ∀ j, ((policy.detachVcpu i s).entry j).state = (s.entry j).state := fun j =>
    (hdetach.state j).resolve_right fun hj => List.not_mem_nil hj.1
  have hinflight := congrArg (List.erase · i) hdetach.inflight
  refine ⟨i, hi, ?_⟩
  rw [← Option.some.inj hs]
  split
  · exact ⟨hdetach.vcpuid, hstate, hdetach.standby, hinflight, hdetach.nrEntries, h.mem_detach i s,
      .inr rfl, hdetach.currentVcpu, hdetach.currentVm⟩
  · exact ⟨hdetach.vcpuid, hstate, hdetach.standby, hinflight, hdetach.nrEntries, h.mem_detach i s,
      .inl hdetach.currentVcpuid, hdetach.currentVcpu, hdetach.currentVm⟩

/-- From `s` to `s'` the policy has been asked, and what it chose has been switched to if it is
valid. -/
structure Reschedules (refs : SD → List EntryRef) (vmidOf : VcpuId → Option VmId)
    (s s' : Scheduler ED SD) : Prop where
  vcpuid : ∀ i, (s'.entry i).vcpuid = (s.entry i).vcpuid
  state : ∀ i, (s.entry i).state ≠ .detached → (s'.entry i).state ≠ .detached
  standby : s'.standbyEntries = s.standbyEntries
  inflight : s'.inflightEntries = s.inflightEntries
  nrEntries : s'.nrEntries = s.nrEntries
  known : ∀ j ∈ refs s'.sd, j ∈ refs s.sd
  current : SameCurrent s s' ∨ ∃ i ∈ refs s.sd, ∃ vmid,
    vmidOf (s.entry i).vcpuid = some vmid ∧ SwitchedTo (s.entry i).vcpuid vmid s'

theorem PolicyName.reschedules (conf : SchedConf) (n : PolicyName) {now expiration : U64}
    {vmidOf : VcpuId → Option VmId} {s s' : Scheduler n.EntryData n.SchedData}
    {r : Scheduler n.EntryData n.SchedData × VcpuId × U64}
    (hr : (n.policy conf).doSchedule now expiration s = some r) (hentries : SameEntries r.1 s')
    (hcurrent : SameCurrent r.1 s' ∨ r.2.1 ≠ vcpuidInvalid ∧
      ∃ vmid, vmidOf r.2.1 = some vmid ∧ SwitchedTo r.2.1 vmid s') :
    Reschedules n.refs vmidOf s s' := by
  have htouches := (n.spec conf).schedule now expiration s r hr
  refine ⟨fun i => ?_, fun i hi => ?_, hentries.standby.trans htouches.standby,
    hentries.inflight.trans htouches.inflight, hentries.nrEntries.trans htouches.nrEntries,
    fun j hj => ?_, ?_⟩
  · rw [hentries.entry, htouches.vcpuid]
  · rw [hentries.entry]
    exact htouches.state_ne hi
  · exact (n.spec conf).mem_schedule now expiration s r hr j (hentries.sd ▸ hj)
  · rcases hcurrent with hsame | ⟨hvalid, vmid, hvmid, hswitched⟩
    · exact .inl (htouches.sameCurrent.trans hsame)
    · obtain ⟨i, hi, hpick⟩ := (n.picks conf hr).resolve_left hvalid
      rw [hpick] at hvmid hswitched
      exact .inr ⟨i, hi, vmid, hvmid, hswitched⟩

/-! ## Entries that are kept -/

/-- Everybody is found as before, and no entry has come into the detached state. -/
structure KeepsEntries (s s' : Scheduler ED SD) : Prop where
  standby : s'.standbyEntries = s.standbyEntries
  vcpuid : ∀ i, (s'.entry i).vcpuid = (s.entry i).vcpuid
  state : ∀ i, (s.entry i).state ≠ .detached → (s'.entry i).state ≠ .detached

theorem KeepsEntries.refl (s : Scheduler ED SD) : KeepsEntries s s :=
  ⟨rfl, fun _ => rfl, fun _ => id⟩

theorem KeepsEntries.findEntry (h : KeepsEntries s s') (v : VcpuId) :
    findEntry s' v = findEntry s v :=
  findEntry_congr h.standby (fun i _ => h.vcpuid i) v

theorem Attaches.keepsEntries (h : Attaches policy i s s') : KeepsEntries s s' := by
  refine ⟨h.standby, h.vcpuid, fun j hj => ?_⟩
  rw [h.state]
  split
  · decide
  · exact hj

theorem Detaches.keepsEntries (h : Detaches refs i s s') : KeepsEntries s s' :=
  ⟨h.standby, h.vcpuid, fun j hj => by rwa [h.state]⟩

theorem Reschedules.keepsEntries {vmidOf : VcpuId → Option VmId}
    (h : Reschedules refs vmidOf s s') : KeepsEntries s s' :=
  ⟨h.standby, h.vcpuid, h.state⟩

/-! ## The invariant -/

/-- The entries on the lists have been allocated; those in flight are there once, and none is in
the detached state. -/
structure EntriesInv (s : Scheduler ED SD) : Prop where
  standby : ∀ i ∈ s.standbyEntries, i < s.nrEntries
  inflight : ∀ i ∈ s.inflightEntries, i < s.nrEntries
  nodup : s.inflightEntries.Nodup
  state : ∀ i ∈ s.inflightEntries, (s.entry i).state ≠ .detached

theorem EntriesInv.register (h : EntriesInv s) (policy : SchedPolicy ED SD) (v : VcpuId) :
    EntriesInv (schedVcpuRegister policy v s) := by
  refine ⟨fun i hi => ?_, fun i hi => Nat.lt_succ_of_lt (h.inflight i hi), h.nodup, fun i hi => ?_⟩
  · rcases List.mem_append.mp hi with hi | hi
    · exact Nat.lt_succ_of_lt (h.standby i hi)
    · rw [List.mem_singleton.mp hi]
      exact Nat.lt_succ_self _
  · rw [schedVcpuRegister_entry_of_lt policy v s (h.inflight i hi)]
    exact h.state i hi

/-- The entries that were on the list are as before, and what was added is for `v`. -/
structure AddsEntry (v : VcpuId) (s s' : Scheduler ED SD) : Prop where
  found : ∀ w, w ≠ v → findEntry s' w = findEntry s w
  entry : ∀ i ∈ s.standbyEntries, s'.entry i = s.entry i
  standby : ∀ i ∈ s'.standbyEntries, i ∈ s.standbyEntries ∨ (s'.entry i).vcpuid = v

theorem AddsEntry.refl (v : VcpuId) (s : Scheduler ED SD) : AddsEntry v s s :=
  ⟨fun _ _ => rfl, fun _ _ => rfl, fun _ => .inl⟩

theorem EntriesInv.addsEntry (h : EntriesInv s) (policy : SchedPolicy ED SD) (v : VcpuId) :
    AddsEntry v s (schedVcpuRegister policy v s) := by
  refine ⟨fun w hw => ?_, fun i hi => ?_, fun i hi => ?_⟩
  · rw [findEntry_register policy v h.standby, if_neg (Ne.symm hw), Option.or_none]
  · exact schedVcpuRegister_entry_of_lt policy v s (h.standby i hi)
  · refine (List.mem_append.mp hi).imp_right fun hnew => ?_
    rw [List.mem_singleton.mp hnew, schedVcpuRegister_entry_self]

theorem EntriesInv.attach (h : EntriesInv s) (hfind : findEntry s v = some i)
    (hattach : Attaches policy i s s') : EntriesInv s' := by
  have hlt := h.standby i (findEntry_some hfind).1
  refine ⟨fun j hj => ?_, fun j hj => ?_, ?_, fun j hj => ?_⟩
  · rw [hattach.nrEntries]
    exact h.standby j (hattach.standby ▸ hj)
  · rw [hattach.inflight] at hj
    rw [hattach.nrEntries]
    rcases List.mem_append.mp hj with hj | hj
    · exact h.inflight j hj
    · rw [List.mem_singleton.mp hj]
      exact hlt
  · rw [hattach.inflight, ← List.concat_eq_append]
    exact List.Nodup.concat (fun hi => h.state i hi hattach.detached) h.nodup
  · rw [hattach.state]
    by_cases hji : j = i
    · rw [if_pos hji]
      decide
    · rw [hattach.inflight] at hj
      rw [if_neg hji]
      exact h.state j ((List.mem_append.mp hj).resolve_right (by simpa using hji))

theorem EntriesInv.detach (h : EntriesInv s) (hdetach : Detaches refs i s s') : EntriesInv s' := by
  have hsub : ∀ j ∈ s'.inflightEntries, j ∈ s.inflightEntries := fun j hj =>
    List.mem_of_mem_erase (hdetach.inflight ▸ hj)
  refine ⟨fun j hj => ?_, fun j hj => ?_, ?_, fun j hj => ?_⟩
  · rw [hdetach.nrEntries]
    exact h.standby j (hdetach.standby ▸ hj)
  · rw [hdetach.nrEntries]
    exact h.inflight j (hsub j hj)
  · rw [hdetach.inflight]
    exact h.nodup.erase i
  · rw [hdetach.state]
    exact h.state j (hsub j hj)

theorem EntriesInv.congr (h : EntriesInv s) (hkeeps : KeepsEntries s s')
    (hinflight : s'.inflightEntries = s.inflightEntries) (hnr : s'.nrEntries = s.nrEntries) :
    EntriesInv s' := by
  refine ⟨fun j hj => ?_, fun j hj => ?_, ?_, fun j hj => ?_⟩
  · rw [hnr]
    exact h.standby j (hkeeps.standby ▸ hj)
  · rw [hnr]
    exact h.inflight j (hinflight ▸ hj)
  · rw [hinflight]
    exact h.nodup
  · exact hkeeps.state j (h.state j (hinflight ▸ hj))

theorem EntriesInv.reschedule {vmidOf : VcpuId → Option VmId} (h : EntriesInv s)
    (hsched : Reschedules refs vmidOf s s') : EntriesInv s' :=
  h.congr hsched.keepsEntries hsched.inflight hsched.nrEntries

theorem EntriesInv.unlist {vs : List VcpuId} (h : EntriesInv s) (hunlists : Unlists vs s s') :
    EntriesInv s' := by
  refine ⟨fun j hj => ?_, fun j hj => ?_, ?_, fun j hj => ?_⟩
  · rw [hunlists.nrEntries]
    exact h.standby j (hunlists.standby j hj)
  · rw [hunlists.nrEntries]
    exact h.inflight j (hunlists.inflight ▸ hj)
  · rw [hunlists.inflight]
    exact h.nodup
  · rw [hunlists.entry]
    exact h.state j (hunlists.inflight ▸ hj)

theorem entriesInv_schedInit (policy : SchedPolicy ED SD) (pcpu : PcpuId)
    (block : Scheduler ED SD) : EntriesInv (schedInit policy pcpu block) :=
  ⟨fun _ hi => absurd hi List.not_mem_nil, fun _ hi => absurd hi List.not_mem_nil, List.nodup_nil,
    fun _ hi => absurd hi List.not_mem_nil⟩

end KHypervisor
