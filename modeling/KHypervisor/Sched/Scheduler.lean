import Mathlib.Data.Finset.Basic
import Mathlib.Data.List.Find
import KHypervisor.Lib.Run
import KHypervisor.Sched.RealTime
import KHypervisor.Sched.RoundRobin

/-!
# The core of a scheduler

The operations of `scheduler.c` on the scheduler of one physical processor, over any policy, and
the runs of them. A run records beside the scheduler which virtual processors have been attached
and not detached since.
-/

namespace KHypervisor

open Scheduler Run

variable {ED SD : Type}

/-- The turn of `sched_init` for one processor, on a block that `malloc` returned. The policy is
initialised before the fields of the core are. -/
def schedInit (policy : SchedPolicy ED SD) (pcpu : PcpuId) (block : Scheduler ED SD) :
    Scheduler ED SD :=
  { block.setSd (policy.init block) with
    pcpuid := pcpu
    currentVcpuid := vcpuidInvalid
    nextVcpuid := vcpuidInvalid
    currentVcpu := none
    currentVm := none
    standbyEntries := []
    inflightEntries := []
    nrEntries := 0 }

/-- `find_entry`. -/
def findEntry (s : Scheduler ED SD) (vcpuid : VcpuId) : Option EntryRef :=
  s.standbyEntries.find? fun e => (s.entry e).vcpuid = vcpuid

/-- `sched_vcpu_register`. -/
def schedVcpuRegister (policy : SchedPolicy ED SD) (vcpuid : VcpuId) (s : Scheduler ED SD) :
    Scheduler ED SD :=
  { s with
    entry := Function.update s.entry s.nrEntries ⟨vcpuid, .detached, policy.registerVcpu vcpuid⟩
    nrEntries := s.nrEntries + 1
    standbyEntries := s.standbyEntries ++ [s.nrEntries] }

/-- `sched_vcpu_attach`, with the number that it returns. -/
def schedVcpuAttach (policy : SchedPolicy ED SD) (vcpuid : VcpuId) (pcpu : PcpuId)
    (s : Scheduler ED SD) : Scheduler ED SD × ℕ :=
  match findEntry s vcpuid with
  | none => (s, 255)
  | some target =>
      if (s.entry target).state ≠ .detached then (s, 254)
      else
        let s := policy.attachVcpu target (s.setState target .waiting)
        ({ s with inflightEntries := s.inflightEntries ++ [target] }, pcpu)

/-- `sched_vcpu_detach`, where `current` is the `current_vcpu` of the processor that executes it.
There is no result where it follows a null pointer. -/
def schedVcpuDetach (policy : SchedPolicy ED SD) (current : Option VcpuId) (vcpuid : VcpuId)
    (s : Scheduler ED SD) : Option (Scheduler ED SD) := do
  let target ← findEntry s vcpuid
  let s := policy.detachVcpu target s
  let s := { s with inflightEntries := s.inflightEntries.erase target }
  let current ← current
  some (if current = vcpuid then { s with currentVcpuid := vcpuidInvalid } else s)

/-- `sched_vcpu_unregister`, which leaves the other lists as they are. What `unregister_vcpu` of the
policy frees is said by `freed`. There is no result where it follows a null pointer. -/
def schedVcpuUnregister (vcpuid : VcpuId) (s : Scheduler ED SD) : Option (Scheduler ED SD) := do
  let target ← findEntry s vcpuid
  some { s with standbyEntries := s.standbyEntries.erase target }

def freed (policy : SchedPolicy ED SD) (s : Scheduler ED SD) (e : EntryRef) : Bool :=
  !s.standbyEntries.contains e && (policy.unregisterVcpu e).contains e

/-- An entry that the policy still refers to has data that has been freed, and that `malloc` may
have handed out again. -/
def queuesFreed (policy : SchedPolicy ED SD) (refs : SD → List EntryRef) (s : Scheduler ED SD) :
    Bool :=
  (refs s.sd).any (freed policy s)

/-- `switch_to`. -/
def switchTo (vcpuid : VcpuId) (s : Scheduler ED SD) : Scheduler ED SD :=
  { s with nextVcpuid := vcpuid }

/-- The assignments of `sched_perform_switch`, with the arguments of `do_context_switch` if it is
called. `vmidOf` is what `vcpu_find` finds of a virtual processor. -/
def prepareSwitch (vmidOf : VcpuId → Option VmId) (s : Scheduler ED SD) :
    Option (Scheduler ED SD × Option (VcpuId × VcpuId)) :=
  if s.nextVcpuid ≠ vcpuidInvalid then
    (vmidOf s.nextVcpuid).map fun vmid =>
      ({ s with
          currentVcpuid := s.nextVcpuid
          nextVcpuid := vcpuidInvalid
          currentVcpu := some s.nextVcpuid
          currentVm := some vmid },
        some (s.currentVcpuid, s.nextVcpuid))
  else some (s, none)

/-- `do_schedule` up to the switch. -/
def scheduleNext (policy : SchedPolicy ED SD) (vmidOf : VcpuId → Option VmId)
    (now expiration : U64) (s : Scheduler ED SD) :
    Option (Scheduler ED SD × Option (VcpuId × VcpuId)) :=
  (policy.doSchedule now expiration s).bind fun r => prepareSwitch vmidOf (switchTo r.2.1 r.1)

/-! ## Entries -/

theorem findEntry_some {s : Scheduler ED SD} {v : VcpuId} {i : EntryRef}
    (h : findEntry s v = some i) : i ∈ s.standbyEntries ∧ (s.entry i).vcpuid = v :=
  ⟨List.mem_of_find?_eq_some h, by simpa using List.find?_some h⟩

theorem findEntry_congr {s s' : Scheduler ED SD} (hstandby : s'.standbyEntries = s.standbyEntries)
    (hvcpuid : ∀ i ∈ s.standbyEntries, (s'.entry i).vcpuid = (s.entry i).vcpuid) (v : VcpuId) :
    findEntry s' v = findEntry s v := by
  rw [findEntry, findEntry, hstandby]
  exact List.find?_congr fun i hi => by rw [hvcpuid i hi]

theorem Scheduler.Touches.findEntry {active : List EntryRef} {s s' : Scheduler ED SD}
    (h : Scheduler.Touches active s s') (v : VcpuId) : findEntry s' v = findEntry s v :=
  findEntry_congr h.standby (fun i _ => h.vcpuid i) v

theorem Scheduler.Touches.state_ne {active : List EntryRef} {s s' : Scheduler ED SD}
    (h : Scheduler.Touches active s s') {i : EntryRef} (hi : (s.entry i).state ≠ .detached) :
    (s'.entry i).state ≠ .detached := by
  rcases h.state i with hstate | ⟨-, hstate⟩
  · rwa [hstate]
  · exact hstate

theorem schedVcpuRegister_entry_of_lt (policy : SchedPolicy ED SD) (v : VcpuId)
    (s : Scheduler ED SD) {i : EntryRef} (hi : i < s.nrEntries) :
    (schedVcpuRegister policy v s).entry i = s.entry i :=
  Function.update_of_ne (Nat.ne_of_lt hi) _ _

theorem schedVcpuRegister_entry_self (policy : SchedPolicy ED SD) (v : VcpuId)
    (s : Scheduler ED SD) :
    (schedVcpuRegister policy v s).entry s.nrEntries = ⟨v, .detached, policy.registerVcpu v⟩ :=
  Function.update_self ..

/-- Who is found already stays the same; a new entry is found by its own number alone. -/
theorem findEntry_register (policy : SchedPolicy ED SD) (v : VcpuId) {s : Scheduler ED SD}
    (hfresh : ∀ i ∈ s.standbyEntries, i < s.nrEntries) (w : VcpuId) :
    findEntry (schedVcpuRegister policy v s) w =
      (findEntry s w).or (if v = w then some s.nrEntries else none) := by
  have hold : s.standbyEntries.find?
      (fun e => ((schedVcpuRegister policy v s).entry e).vcpuid = w) = findEntry s w :=
    List.find?_congr fun i hi => by rw [schedVcpuRegister_entry_of_lt policy v s (hfresh i hi)]
  have hnew : ((schedVcpuRegister policy v s).entry s.nrEntries).vcpuid = v := by
    rw [schedVcpuRegister_entry_self]
  have happend : findEntry (schedVcpuRegister policy v s) w =
      (s.standbyEntries ++ [s.nrEntries]).find?
        fun e => ((schedVcpuRegister policy v s).entry e).vcpuid = w := rfl
  rw [happend, List.find?_append, hold, List.find?_singleton, hnew]
  simp

theorem find?_erase_of_not {α : Type} [DecidableEq α] {p : α → Bool} {l : List α} {a : α}
    (ha : p a = false) : (l.erase a).find? p = l.find? p := by
  induction l with
  | nil => rfl
  | cons b l ih =>
      by_cases hb : b = a
      · subst hb
        rw [List.erase_cons_head, List.find?_cons, ha]
      · rw [List.erase_cons_tail (by simpa using hb), List.find?_cons, List.find?_cons, ih]

/-- Entries have been taken off the standby list, among them none that is found by a number outside
`vs`. -/
structure Unlists (vs : List VcpuId) (s s' : Scheduler ED SD) : Prop where
  entry : s'.entry = s.entry
  inflight : s'.inflightEntries = s.inflightEntries
  nrEntries : s'.nrEntries = s.nrEntries
  sd : s'.sd = s.sd
  currentVcpuid : s'.currentVcpuid = s.currentVcpuid
  currentVcpu : s'.currentVcpu = s.currentVcpu
  currentVm : s'.currentVm = s.currentVm
  standby : ∀ i ∈ s'.standbyEntries, i ∈ s.standbyEntries
  kept : ∀ i ∈ s.standbyEntries, (s.entry i).vcpuid ∉ vs → i ∈ s'.standbyEntries
  findEntry : ∀ w ∉ vs, findEntry s' w = findEntry s w

theorem Unlists.refl (vs : List VcpuId) (s : Scheduler ED SD) : Unlists vs s s :=
  ⟨rfl, rfl, rfl, rfl, rfl, rfl, rfl, fun _ hi => hi, fun _ hi _ => hi, fun _ _ => rfl⟩

theorem Unlists.mono {vs ws : List VcpuId} {s s' : Scheduler ED SD} (h : Unlists vs s s')
    (hsub : ∀ v ∈ vs, v ∈ ws) : Unlists ws s s' :=
  { h with
    kept := fun i hi hw => h.kept i hi fun hv => hw (hsub _ hv)
    findEntry := fun w hw => h.findEntry w fun hv => hw (hsub w hv) }

theorem Unlists.trans {vs : List VcpuId} {s s' s'' : Scheduler ED SD} (h : Unlists vs s s')
    (h' : Unlists vs s' s'') : Unlists vs s s'' where
  entry := h'.entry.trans h.entry
  inflight := h'.inflight.trans h.inflight
  nrEntries := h'.nrEntries.trans h.nrEntries
  sd := h'.sd.trans h.sd
  currentVcpuid := h'.currentVcpuid.trans h.currentVcpuid
  currentVcpu := h'.currentVcpu.trans h.currentVcpu
  currentVm := h'.currentVm.trans h.currentVm
  standby i hi := h.standby i (h'.standby i hi)
  kept i hi hv := h'.kept i (h.kept i hi hv) (by rwa [h.entry])
  findEntry w hw := (h'.findEntry w hw).trans (h.findEntry w hw)

theorem unlists_schedVcpuUnregister {v : VcpuId} {s s' : Scheduler ED SD}
    (h : schedVcpuUnregister v s = some s') : Unlists [v] s s' := by
  obtain ⟨i, hi, h⟩ := Option.bind_eq_some_iff.mp h
  rw [← Option.some.inj h]
  obtain ⟨-, hv⟩ := findEntry_some hi
  refine ⟨rfl, rfl, rfl, rfl, rfl, rfl, rfl, fun j hj => List.mem_of_mem_erase hj,
    fun j hj hw => ?_, fun w hw => ?_⟩
  · have hne : j ≠ i := by
      rintro rfl
      exact hw (by rw [hv]; exact List.mem_singleton_self v)
    exact (List.mem_erase_of_ne hne).mpr hj
  · have hne : v ≠ w := fun hvw => hw (by simp [hvw])
    exact find?_erase_of_not (by simpa [hv] using hne)

/-- What `sched_perform_switch` leaves alone before the switch. -/
structure SameEntries (s s' : Scheduler ED SD) : Prop where
  entry : s'.entry = s.entry
  standby : s'.standbyEntries = s.standbyEntries
  inflight : s'.inflightEntries = s.inflightEntries
  nrEntries : s'.nrEntries = s.nrEntries
  sd : s'.sd = s.sd

theorem prepareSwitch_sameEntries {vmidOf : VcpuId → Option VmId} {s s' : Scheduler ED SD}
    {switch : Option (VcpuId × VcpuId)} (h : prepareSwitch vmidOf s = some (s', switch)) :
    SameEntries s s' := by
  rw [prepareSwitch] at h
  split at h
  · obtain ⟨vmid, -, hs⟩ := Option.map_eq_some_iff.mp h
    rw [← (Prod.mk.inj hs).1]
    exact ⟨rfl, rfl, rfl, rfl, rfl⟩
  · rw [Option.some.injEq, Prod.mk.injEq] at h
    rw [← h.1]
    exact ⟨rfl, rfl, rfl, rfl, rfl⟩

theorem prepareSwitch_some {vmidOf : VcpuId → Option VmId} {s : Scheduler ED SD}
    (h : (vmidOf s.nextVcpuid).isSome = true) : ∃ r, prepareSwitch vmidOf s = some r := by
  obtain ⟨vmid, hvmid⟩ := Option.isSome_iff_exists.mp h
  rw [prepareSwitch, hvmid, Option.map_some]
  split <;> exact ⟨_, rfl⟩

/-- The scheduler has switched to virtual processor `n` of machine `vmid`. -/
structure SwitchedTo (n : VcpuId) (vmid : VmId) (s : Scheduler ED SD) : Prop where
  currentVcpuid : s.currentVcpuid = n
  currentVcpu : s.currentVcpu = some n
  currentVm : s.currentVm = some vmid

structure SameCurrent (s s' : Scheduler ED SD) : Prop where
  currentVcpuid : s'.currentVcpuid = s.currentVcpuid
  currentVcpu : s'.currentVcpu = s.currentVcpu
  currentVm : s'.currentVm = s.currentVm

/-! ## Runs -/

/-- The operations on a scheduler. Any processor may execute the first three; what a detachment
reads of it is its `current_vcpu`. -/
inductive SchedEvent
  | register (vcpuid : VcpuId)
  | attach (vcpuid : VcpuId)
  | detach (current : Option VcpuId) (vcpuid : VcpuId)
  | schedule (now expiration : U64)

/-- A scheduler and, for the statements only, the virtual processors that have been attached and
not detached since. -/
structure SchedTrace (ED SD : Type) where
  s : Scheduler ED SD
  attached : Finset VcpuId

/-- A return value of `sched_vcpu_attach` that is not an error. -/
def Succeeds (code : ℕ) : Prop := code ≠ 255 ∧ code ≠ 254

instance (code : ℕ) : Decidable (Succeeds code) := inferInstanceAs (Decidable (_ ∧ _))

theorem succeeds_of_lt {pcpu : ℕ} (h : pcpu < 254) : Succeeds pcpu :=
  ⟨Nat.ne_of_lt (h.trans (by decide)), Nat.ne_of_lt h⟩

def schedStep (policy : SchedPolicy ED SD) (pcpu : PcpuId) (vmidOf : VcpuId → Option VmId)
    (t : SchedTrace ED SD) : SchedEvent → Option (SchedTrace ED SD)
  | .register v => some { t with s := schedVcpuRegister policy v t.s }
  | .attach v =>
      some ⟨(schedVcpuAttach policy v pcpu t.s).1,
        if Succeeds (schedVcpuAttach policy v pcpu t.s).2 then insert v t.attached
        else t.attached⟩
  | .detach current v =>
      (schedVcpuDetach policy current v t.s).map fun s => ⟨s, t.attached.erase v⟩
  | .schedule now expiration =>
      (scheduleNext policy vmidOf now expiration t.s).map fun r => { t with s := r.1 }

def freshTrace (policy : SchedPolicy ED SD) (pcpu : PcpuId) (block : Scheduler ED SD) :
    SchedTrace ED SD :=
  ⟨schedInit policy pcpu block, ∅⟩

end KHypervisor
