import Mathlib.Logic.Function.Basic
import KHypervisor.Types

/-!
# Schedulers and their policies

The data of `scheduler_skeleton.h`. A scheduler belongs to one physical processor and owns the
entries that were allocated for it; a pointer to an entry is its number in the order of
allocation. The lists of the source are circular and intrusive: to add at the tail is to append,
and to delete an entry is `List.erase`, which leaves a list without the entry alone, as
`list_delinit` of an entry linked to itself does.
-/

namespace KHypervisor

/-- `sched_state`. -/
inductive SchedState
  | detached
  | waiting
  | running
deriving DecidableEq, Inhabited

/-- A pointer to a `struct sched_entry`. -/
abbrev EntryRef := ℕ

/-- `struct sched_entry`, with the policy's data `ed` in it. -/
structure SchedEntry (ED : Type) where
  vcpuid : VcpuId
  state : SchedState
  ed : ED
deriving Inhabited

/-- `struct scheduler`, with the policy's data `sd` in it and the entries that were allocated for
it. The pointers `current_vcpu` and `current_vm` are the numbers of what they point to. -/
structure Scheduler (ED SD : Type) where
  pcpuid : PcpuId
  currentVcpuid : VcpuId
  nextVcpuid : VcpuId
  currentVcpu : Option VcpuId
  currentVm : Option VmId
  standbyEntries : List EntryRef
  inflightEntries : List EntryRef
  sd : SD
  entry : EntryRef → SchedEntry ED
  nrEntries : ℕ
deriving Inhabited

/-- `struct sched_policy`. `unregister_vcpu` is given by the entries whose data it frees.
`do_schedule` takes the time and the expiration it may overwrite, and returns the number of the next
virtual processor and the new expiration; it has no result where the source loops forever or follows
a null pointer. -/
structure SchedPolicy (ED SD : Type) where
  init : Scheduler ED SD → SD
  registerVcpu : VcpuId → ED
  unregisterVcpu : EntryRef → List EntryRef
  attachVcpu : EntryRef → Scheduler ED SD → Scheduler ED SD
  detachVcpu : EntryRef → Scheduler ED SD → Scheduler ED SD
  doSchedule : U64 → U64 → Scheduler ED SD → Option (Scheduler ED SD × VcpuId × U64)

/-- The tables of `sched-config.c`. -/
structure SchedConf where
  rrSlice : VcpuId → U32
  rmTickIntervalUs : PcpuId → U32
  rmPeriodBudget : VcpuId → U32 × U32
  edfTickIntervalUs : PcpuId → U32
  edfPeriodBudget : VcpuId → U32 × U32
deriving Inhabited

/-- `MSEC`. -/
def msec (ms : U64) : U64 := ms * 1000000

/-- `USEC`. -/
def usec (us : U64) : U64 := us * 1000

namespace Scheduler

variable {ED SD : Type}

def setState (i : EntryRef) (state : SchedState) (s : Scheduler ED SD) : Scheduler ED SD :=
  { s with entry := Function.update s.entry i { s.entry i with state := state } }

def setEd (i : EntryRef) (ed : ED) (s : Scheduler ED SD) : Scheduler ED SD :=
  { s with entry := Function.update s.entry i { s.entry i with ed := ed } }

def setSd (sd : SD) (s : Scheduler ED SD) : Scheduler ED SD := { s with sd := sd }

@[simp]
theorem setState_vcpuid (i j : EntryRef) (state : SchedState) (s : Scheduler ED SD) :
    ((s.setState i state).entry j).vcpuid = (s.entry j).vcpuid := by
  by_cases hj : j = i <;> simp [setState, hj]

@[simp]
theorem setState_state (i j : EntryRef) (state : SchedState) (s : Scheduler ED SD) :
    ((s.setState i state).entry j).state = if j = i then state else (s.entry j).state := by
  by_cases hj : j = i <;> simp [setState, hj]

@[simp]
theorem setState_ed (i j : EntryRef) (state : SchedState) (s : Scheduler ED SD) :
    ((s.setState i state).entry j).ed = (s.entry j).ed := by
  by_cases hj : j = i <;> simp [setState, hj]

@[simp]
theorem setEd_vcpuid (i j : EntryRef) (ed : ED) (s : Scheduler ED SD) :
    ((s.setEd i ed).entry j).vcpuid = (s.entry j).vcpuid := by
  by_cases hj : j = i <;> simp [setEd, hj]

@[simp]
theorem setEd_state (i j : EntryRef) (ed : ED) (s : Scheduler ED SD) :
    ((s.setEd i ed).entry j).state = (s.entry j).state := by
  by_cases hj : j = i <;> simp [setEd, hj]

@[simp]
theorem setEd_ed (i j : EntryRef) (ed : ED) (s : Scheduler ED SD) :
    ((s.setEd i ed).entry j).ed = if j = i then ed else (s.entry j).ed := by
  by_cases hj : j = i <;> simp [setEd, hj]

@[simp]
theorem setState_sd (i : EntryRef) (state : SchedState) (s : Scheduler ED SD) :
    (s.setState i state).sd = s.sd := rfl

@[simp]
theorem setEd_sd (i : EntryRef) (ed : ED) (s : Scheduler ED SD) : (s.setEd i ed).sd = s.sd := rfl

@[simp]
theorem setSd_sd (sd : SD) (s : Scheduler ED SD) : (s.setSd sd).sd = sd := rfl

@[simp]
theorem setSd_entry (sd : SD) (s : Scheduler ED SD) : (s.setSd sd).entry = s.entry := rfl

/-- From `s` to `s'` nothing but policy data changed, and the states of some of the entries in
`active`, none of which became detached. -/
structure Touches (active : List EntryRef) (s s' : Scheduler ED SD) : Prop where
  vcpuid : ∀ i, (s'.entry i).vcpuid = (s.entry i).vcpuid
  state : ∀ i, (s'.entry i).state = (s.entry i).state ∨
    i ∈ active ∧ (s'.entry i).state ≠ .detached
  standby : s'.standbyEntries = s.standbyEntries
  inflight : s'.inflightEntries = s.inflightEntries
  nrEntries : s'.nrEntries = s.nrEntries
  pcpuid : s'.pcpuid = s.pcpuid
  currentVcpuid : s'.currentVcpuid = s.currentVcpuid
  nextVcpuid : s'.nextVcpuid = s.nextVcpuid
  currentVcpu : s'.currentVcpu = s.currentVcpu
  currentVm : s'.currentVm = s.currentVm

variable {active : List EntryRef} {s s' s'' : Scheduler ED SD}

theorem Touches.refl (active : List EntryRef) (s : Scheduler ED SD) : Touches active s s :=
  ⟨fun _ => rfl, fun _ => .inl rfl, rfl, rfl, rfl, rfl, rfl, rfl, rfl, rfl⟩

theorem Touches.trans (h : Touches active s s') (h' : Touches active s' s'') :
    Touches active s s'' where
  vcpuid i := (h'.vcpuid i).trans (h.vcpuid i)
  state i := by
    rcases h'.state i with hlast | hlast
    · rw [hlast]
      exact h.state i
    · exact .inr hlast
  standby := h'.standby.trans h.standby
  inflight := h'.inflight.trans h.inflight
  nrEntries := h'.nrEntries.trans h.nrEntries
  pcpuid := h'.pcpuid.trans h.pcpuid
  currentVcpuid := h'.currentVcpuid.trans h.currentVcpuid
  nextVcpuid := h'.nextVcpuid.trans h.nextVcpuid
  currentVcpu := h'.currentVcpu.trans h.currentVcpu
  currentVm := h'.currentVm.trans h.currentVm

theorem Touches.mono {active' : List EntryRef} (h : Touches active s s')
    (hsub : ∀ i ∈ active, i ∈ active') : Touches active' s s' :=
  { h with state := fun i => (h.state i).imp_right fun hi => ⟨hsub i hi.1, hi.2⟩ }

theorem touches_setState {i : EntryRef} (hi : i ∈ active) {state : SchedState}
    (hstate : state ≠ .detached) (s : Scheduler ED SD) :
    Touches active s (s.setState i state) := by
  refine ⟨fun j => setState_vcpuid .., fun j => ?_, rfl, rfl, rfl, rfl, rfl, rfl, rfl, rfl⟩
  rw [setState_state]
  by_cases hj : j = i
  · rw [if_pos hj, hj]
    exact .inr ⟨hi, hstate⟩
  · rw [if_neg hj]
    exact .inl rfl

theorem touches_setEd (active : List EntryRef) (i : EntryRef) (ed : ED) (s : Scheduler ED SD) :
    Touches active s (s.setEd i ed) :=
  ⟨fun _ => setEd_vcpuid .., fun _ => .inl (setEd_state ..), rfl, rfl, rfl, rfl, rfl, rfl, rfl, rfl⟩

theorem touches_setSd (active : List EntryRef) (sd : SD) (s : Scheduler ED SD) :
    Touches active s (s.setSd sd) :=
  ⟨fun _ => rfl, fun _ => .inl rfl, rfl, rfl, rfl, rfl, rfl, rfl, rfl, rfl⟩

end Scheduler

end KHypervisor
