import KHypervisor.Sched.Skeleton

/-!
# The round-robin policy

The entry that runs is taken off the run queue and remembered by `current` alone; the next call
puts it back at the tail.
-/

namespace KHypervisor

open Scheduler

/-- `struct entry_data_rr`. -/
structure EntryDataRr where
  tickResetVal : U32
deriving Inhabited

/-- `struct sched_data_rr`. -/
structure SchedDataRr where
  current : Option EntryRef
  runqueue : List EntryRef
deriving Inhabited

/-- `sched_rr_init`. -/
def schedRrInit (_ : Scheduler EntryDataRr SchedDataRr) : SchedDataRr := ⟨none, []⟩

/-- `sched_rr_vcpu_register`. -/
def schedRrVcpuRegister (conf : SchedConf) (vcpuid : VcpuId) : EntryDataRr := ⟨conf.rrSlice vcpuid⟩

/-- `sched_rr_vcpu_unregister`, which frees the data of the entry at once. -/
def schedRrVcpuUnregister (e : EntryRef) : List EntryRef := [e]

/-- `sched_rr_vcpu_attach`. -/
def schedRrVcpuAttach (e : EntryRef) (s : Scheduler EntryDataRr SchedDataRr) :
    Scheduler EntryDataRr SchedDataRr :=
  s.setSd { s.sd with runqueue := s.sd.runqueue ++ [e] }

/-- `sched_rr_vcpu_detach`. -/
def schedRrVcpuDetach (e : EntryRef) (s : Scheduler EntryDataRr SchedDataRr) :
    Scheduler EntryDataRr SchedDataRr :=
  s.setSd ⟨none, s.sd.runqueue.erase e⟩

/-- The first half of `sched_rr_do_schedule`, which puts the current entry back. -/
def putBack (s : Scheduler EntryDataRr SchedDataRr) : Scheduler EntryDataRr SchedDataRr :=
  match s.sd.current with
  | none => s
  | some cur => (s.setState cur .waiting).setSd ⟨none, s.sd.runqueue ++ [cur]⟩

/-- `sched_rr_do_schedule`. A switch is needed exactly if the run queue is not empty after the
current entry is back in it. -/
def schedRrDoSchedule (now expiration : U64) (s : Scheduler EntryDataRr SchedDataRr) :
    Option (Scheduler EntryDataRr SchedDataRr × VcpuId × U64) :=
  let s := putBack s
  match s.sd.runqueue with
  | [] => some (s, vcpuidInvalid, expiration)
  | next :: rest =>
      some ((s.setState next .running).setSd ⟨some next, rest⟩, (s.entry next).vcpuid,
        now + msec 1 * (s.entry next).ed.tickResetVal.setWidth 64)

/-- `sched_rr`. -/
def schedRr (conf : SchedConf) : SchedPolicy EntryDataRr SchedDataRr where
  init := schedRrInit
  registerVcpu := schedRrVcpuRegister conf
  unregisterVcpu := schedRrVcpuUnregister
  attachVcpu := schedRrVcpuAttach
  detachVcpu := schedRrVcpuDetach
  doSchedule := schedRrDoSchedule

def SchedDataRr.refs (sd : SchedDataRr) : List EntryRef := sd.current.toList ++ sd.runqueue

/-- What a call of `sched_rr_do_schedule` makes of the current entry and the queue. -/
def SchedDataRr.rotate (sd : SchedDataRr) : SchedDataRr :=
  match sd.runqueue ++ sd.current.toList with
  | [] => ⟨none, []⟩
  | next :: rest => ⟨some next, rest⟩

theorem SchedDataRr.refs_rotate (sd : SchedDataRr) :
    sd.rotate.refs = sd.runqueue ++ sd.current.toList := by
  rw [rotate]
  cases sd.runqueue ++ sd.current.toList with
  | nil => rfl
  | cons next rest => rfl

theorem SchedDataRr.rotate_perm (sd : SchedDataRr) : sd.rotate.refs.Perm sd.refs := by
  rw [refs_rotate]
  exact List.perm_append_comm

theorem putBack_touches (s : Scheduler EntryDataRr SchedDataRr) :
    Scheduler.Touches s.sd.refs s (putBack s) := by
  rw [putBack]
  cases hcur : s.sd.current with
  | none => exact .refl _ _
  | some cur =>
      refine .trans (touches_setState ?_ (by decide) s) (touches_setSd _ _ _)
      simp [SchedDataRr.refs, hcur]

/-- After the first half of a call nobody is current, and the entry that was is last in the
queue. -/
theorem putBack_sd (s : Scheduler EntryDataRr SchedDataRr) :
    (putBack s).sd = ⟨none, s.sd.runqueue ++ s.sd.current.toList⟩ := by
  rw [putBack]
  rcases hsd : s.sd with ⟨_ | cur, runqueue⟩
  · rw [hsd, Option.toList_none, List.append_nil]
  · rfl

theorem schedRrDoSchedule_some (now expiration : U64) (s : Scheduler EntryDataRr SchedDataRr) :
    ∃ s' v expiration', schedRrDoSchedule now expiration s = some (s', v, expiration') ∧
      s'.sd = s.sd.rotate ∧ Scheduler.Touches s.sd.refs s s' := by
  have hback := putBack_touches s
  have hsd := putBack_sd s
  rw [schedRrDoSchedule, SchedDataRr.rotate]
  cases hqueue : s.sd.runqueue ++ s.sd.current.toList with
  | nil =>
      rw [hqueue] at hsd
      refine ⟨putBack s, vcpuidInvalid, expiration, ?_, hsd, hback⟩
      simp only [hsd]
  | cons next rest =>
      rw [hqueue] at hsd
      have hnext : next ∈ s.sd.refs := by
        rw [SchedDataRr.refs, List.perm_append_comm.mem_iff, hqueue]
        exact List.mem_cons_self
      simp only [hsd]
      exact ⟨_, _, _, rfl, rfl,
        hback.trans ((touches_setState hnext (by decide) _).trans (touches_setSd _ _ _))⟩

/-- A call returns the number of an entry that the policy knows of, if there is one. -/
theorem schedRrDoSchedule_picks {now expiration expiration' : U64}
    {s s' : Scheduler EntryDataRr SchedDataRr} {v : VcpuId}
    (h : schedRrDoSchedule now expiration s = some (s', v, expiration')) :
    v = vcpuidInvalid ∨ ∃ i ∈ s.sd.refs, v = (s.entry i).vcpuid := by
  have hsd := putBack_sd s
  rw [schedRrDoSchedule] at h
  cases hqueue : s.sd.runqueue ++ s.sd.current.toList with
  | nil =>
      simp only [hsd, hqueue, Option.some.injEq, Prod.mk.injEq] at h
      exact .inl h.2.1.symm
  | cons next rest =>
      have hnext : next ∈ s.sd.refs := by
        rw [SchedDataRr.refs, List.perm_append_comm.mem_iff, hqueue]
        exact List.mem_cons_self
      simp only [hsd, hqueue, Option.some.injEq, Prod.mk.injEq] at h
      exact .inr ⟨next, hnext, by rw [← h.2.1, (putBack_touches s).vcpuid]⟩

end KHypervisor
