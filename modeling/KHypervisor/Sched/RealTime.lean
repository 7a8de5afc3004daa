import KHypervisor.Sched.Skeleton
import Mathlib.Data.List.Induction

/-!
# The real-time policies

Rate monotonic and earliest deadline first are one program but for the number that decides which
entry is preferred: the period, or what is left of it. An entry has its budget of ticks in every
period; the loop of `do_schedule` starts the next period of the entries that are at the end of
one, finds the entry to run, and counts the periods down.
-/

namespace KHypervisor

open Scheduler

/-- `struct entry_data_rm` and `struct entry_data_edf`. -/
structure EntryDataRt where
  period : U32
  budget : U32
  periodCntdn : U32
  budgetCntdn : U32
deriving Inhabited, DecidableEq

/-- `struct sched_data_rm` and `struct sched_data_edf`. The numbers that the line
`Deadline miss on vCPU` was printed with are on the console. -/
structure SchedDataRt where
  tickIntervalUs : U64
  ticks : U64
  current : Option EntryRef
  runqueue : List EntryRef
  console : List VcpuId
deriving Inhabited

abbrev SchedulerRt := Scheduler EntryDataRt SchedDataRt

/-- `sched_rm_init` and `sched_edf_init`, with their table of tick intervals. -/
def rtInit (tickIntervalUs : PcpuId → U32) (s : SchedulerRt) : SchedDataRt where
  tickIntervalUs := (tickIntervalUs s.pcpuid).setWidth 64
  ticks := 0
  current := none
  runqueue := []
  console := []

/-- `sched_rm_vcpu_register` and `sched_edf_vcpu_register`, with their table of periods and
budgets. The countdowns start when the entry is attached. -/
def rtVcpuRegister (periodBudget : VcpuId → U32 × U32) (vcpuid : VcpuId) : EntryDataRt where
  period := (periodBudget vcpuid).1
  budget := (periodBudget vcpuid).2
  periodCntdn := 0
  budgetCntdn := 0

def EntryDataRt.replenish (ed : EntryDataRt) : EntryDataRt :=
  { ed with periodCntdn := ed.period, budgetCntdn := ed.budget }

/-- `sched_rm_vcpu_unregister` and `sched_edf_vcpu_unregister`, which do nothing. -/
def rtVcpuUnregister (_ : EntryRef) : List EntryRef := []

/-- `sched_rm_vcpu_attach` and `sched_edf_vcpu_attach`. -/
def rtVcpuAttach (e : EntryRef) (s : SchedulerRt) : SchedulerRt :=
  (s.setEd e (s.entry e).ed.replenish).setSd { s.sd with runqueue := s.sd.runqueue ++ [e] }

/-- `sched_rm_vcpu_detach` and `sched_edf_vcpu_detach`. -/
def rtVcpuDetach (e : EntryRef) (s : SchedulerRt) : SchedulerRt :=
  s.setSd { s.sd with runqueue := s.sd.runqueue.erase e }

structure RtScan where
  s : SchedulerRt
  nextEd : Option EntryRef
  minPeriod : U32

def EntryDataRt.check (ed : EntryDataRt) : EntryDataRt :=
  if ed.periodCntdn = 0 then ed.replenish else ed

/-- A deadline is missed: the period is over, and there is budget left. -/
def EntryDataRt.missed (ed : EntryDataRt) : Bool := ed.periodCntdn = 0 ∧ ed.budgetCntdn ≠ 0

def EntryDataRt.count (ed : EntryDataRt) : EntryDataRt :=
  { ed with periodCntdn := ed.periodCntdn - 1 }

/-- One turn of the loop, where `key` is the number that an entry is preferred by. Both policies
remember the period of the entry they prefer so far. -/
def rtVisit (key : EntryDataRt → U32) (scan : RtScan) (i : EntryRef) : RtScan :=
  let e := scan.s.entry i
  let console := if e.ed.missed then scan.s.sd.console ++ [e.vcpuid] else scan.s.sd.console
  let ed := e.ed.check
  let found := 0 < ed.budgetCntdn ∧ key ed < scan.minPeriod
  { s := (scan.s.setEd i ed.count).setSd { scan.s.sd with console := console }
    nextEd := if found then some i else scan.nextEd
    minPeriod := if found then ed.period else scan.minPeriod }

def rtScan (key : EntryDataRt → U32) (s : SchedulerRt) : RtScan :=
  s.sd.runqueue.foldl (rtVisit key) ⟨s, none, 0xFFFFFFFF⟩

/-- The choice between the entry that the loop found and the current one. There is none if the
current entry is compared with an entry that was not found. -/
def rtChoose (key : EntryDataRt → U32) (scan : RtScan) : Option (SchedulerRt × Option EntryRef) :=
  match scan.s.sd.current with
  | none => some (scan.s, scan.nextEd)
  | some cur =>
      if (scan.s.entry cur).ed.budgetCntdn = 0 then
        some (scan.s.setState cur .waiting, scan.nextEd)
      else
        scan.nextEd.map fun next =>
          if key (scan.s.entry next).ed < key (scan.s.entry cur).ed then (scan.s, some next)
          else (scan.s, some cur)

def rtRun (next : EntryRef) (s : SchedulerRt) : SchedulerRt :=
  let s := s.setState next .running
  let s := s.setSd { s.sd with current := some next }
  s.setEd next { (s.entry next).ed with budgetCntdn := (s.entry next).ed.budgetCntdn - 1 }

def rtTick (s : SchedulerRt) : SchedulerRt := s.setSd { s.sd with ticks := s.sd.ticks + 1 }

/-- `sched_rm_do_schedule` and `sched_edf_do_schedule`. There is no result where they loop forever,
which is on an empty run queue and when no entry is found. -/
def rtDoSchedule (key : EntryDataRt → U32) (now expiration : U64) (s : SchedulerRt) :
    Option (SchedulerRt × VcpuId × U64) :=
  let s := rtTick s
  if s.sd.runqueue = [] then none
  else do
    let (s, nextEd) ← rtChoose key (rtScan key s)
    let next ← nextEd
    let expiration := if expiration = 0 then now else expiration
    some (rtRun next s, (s.entry next).vcpuid, expiration + usec s.sd.tickIntervalUs)

/-- `sched_rm_do_schedule`. -/
def schedRmDoSchedule : U64 → U64 → SchedulerRt → Option (SchedulerRt × VcpuId × U64) :=
  rtDoSchedule EntryDataRt.period

/-- `sched_edf_do_schedule`. -/
def schedEdfDoSchedule : U64 → U64 → SchedulerRt → Option (SchedulerRt × VcpuId × U64) :=
  rtDoSchedule EntryDataRt.periodCntdn

/-- `sched_rt_rm`. -/
def schedRtRm (conf : SchedConf) : SchedPolicy EntryDataRt SchedDataRt where
  init := rtInit conf.rmTickIntervalUs
  registerVcpu := rtVcpuRegister conf.rmPeriodBudget
  unregisterVcpu := rtVcpuUnregister
  attachVcpu := rtVcpuAttach
  detachVcpu := rtVcpuDetach
  doSchedule := schedRmDoSchedule

/-- `sched_rt_edf`. -/
def schedRtEdf (conf : SchedConf) : SchedPolicy EntryDataRt SchedDataRt where
  init := rtInit conf.edfTickIntervalUs
  registerVcpu := rtVcpuRegister conf.edfPeriodBudget
  unregisterVcpu := rtVcpuUnregister
  attachVcpu := rtVcpuAttach
  detachVcpu := rtVcpuDetach
  doSchedule := schedEdfDoSchedule

def SchedDataRt.refs (sd : SchedDataRt) : List EntryRef := sd.current.toList ++ sd.runqueue

/-! ## The loop -/

@[simp]
theorem EntryDataRt.check_period (ed : EntryDataRt) : ed.check.period = ed.period := by
  rw [check]
  split <;> rfl

@[simp]
theorem EntryDataRt.check_budget (ed : EntryDataRt) : ed.check.budget = ed.budget := by
  rw [check]
  split <;> rfl

theorem toNat_sub_one {x : U32} (h : 0 < x.toNat) : (x - 1).toNat = x.toNat - 1 :=
  BitVec.toNat_sub_of_le (BitVec.le_def.mpr h)

theorem EntryDataRt.check_cntdn (ed : EntryDataRt) (hle : ed.periodCntdn ≤ ed.period)
    (hpos : 0 < ed.period.toNat) :
    0 < ed.check.periodCntdn.toNat ∧ ed.check.periodCntdn.toNat ≤ ed.period.toNat := by
  rw [check]
  by_cases hover : ed.periodCntdn = 0
  · rw [if_pos hover]
    exact ⟨hpos, Nat.le_refl _⟩
  · rw [if_neg hover]
    exact ⟨BitVec.lt_def.mp ((BitVec.pos_iff_ne_zero _).mpr hover), BitVec.le_def.mp hle⟩

/-- What holds before the loop and is kept by every turn of it holds after it. -/
theorem rtScan_induction (key : EntryDataRt → U32) (s : SchedulerRt)
    {P : List EntryRef → RtScan → Prop} (hnil : P [] ⟨s, none, 0xFFFFFFFF⟩)
    (hvisit : ∀ l i scan, l ++ [i] <+: s.sd.runqueue → P l scan →
      P (l ++ [i]) (rtVisit key scan i)) : P s.sd.runqueue (rtScan key s) := by
  suffices hall : ∀ l, l <+: s.sd.runqueue → P l (l.foldl (rtVisit key) ⟨s, none, 0xFFFFFFFF⟩)
    from hall _ (List.prefix_refl _)
  intro l
  induction l using List.reverseRecOn with
  | nil => exact fun _ => hnil
  | append_singleton l i ih =>
      intro hl
      rw [List.foldl_append]
      exact hvisit l i _ hl (ih ((List.prefix_append l [i]).trans hl))

theorem notMem_of_concat {α : Type} {l q : List α} {i : α} (h : l ++ [i] <+: q) (hq : q.Nodup) :
    i ∉ l := fun hi =>
  (List.nodup_append.mp (hq.sublist h.sublist)).2.2 i hi i (List.mem_singleton_self i) rfl

/-- What the loop leaves alone, after it has visited the entries of `l`. -/
structure Visited (s : SchedulerRt) (l : List EntryRef) (scan : RtScan) : Prop where
  touches : Scheduler.Touches [] s scan.s
  current : scan.s.sd.current = s.sd.current
  runqueue : scan.s.sd.runqueue = s.sd.runqueue
  next : ∀ i ∈ scan.nextEd, i ∈ l

theorem Visited.visit {key : EntryDataRt → U32} {s : SchedulerRt} {l : List EntryRef}
    {scan : RtScan} (h : Visited s l scan) (i : EntryRef) :
    Visited s (l ++ [i]) (rtVisit key scan i) := by
  refine ⟨h.touches.trans ((touches_setEd ..).trans (touches_setSd ..)), h.current, h.runqueue,
    fun j hj => ?_⟩
  rw [rtVisit, Option.mem_def] at hj
  dsimp only at hj
  by_cases hfound : 0 < (scan.s.entry i).ed.check.budgetCntdn ∧
      key (scan.s.entry i).ed.check < scan.minPeriod
  · rw [if_pos hfound, Option.some.injEq] at hj
    simp [hj]
  · rw [if_neg hfound] at hj
    exact List.mem_append_left _ (h.next j hj)

theorem visited_rtScan (key : EntryDataRt → U32) (s : SchedulerRt) :
    Visited s s.sd.runqueue (rtScan key s) :=
  rtScan_induction key s ⟨.refl _ _, rfl, rfl, fun i hi => absurd hi (Option.not_mem_none i)⟩
    fun _ i _ _ h => h.visit i

/-- What the loop did to the entries of `l`, each of which it visited once. -/
structure Counted (s : SchedulerRt) (l : List EntryRef) (scan : RtScan) : Prop where
  ed : ∀ i, (scan.s.entry i).ed =
    if i ∈ l then (s.entry i).ed.check.count else (s.entry i).ed
  console : ∀ v, v ∈ scan.s.sd.console ↔
    v ∈ s.sd.console ∨ ∃ i ∈ l, (s.entry i).vcpuid = v ∧ (s.entry i).ed.missed

theorem Counted.visit {key : EntryDataRt → U32} {s : SchedulerRt} {l : List EntryRef}
    {scan : RtScan} (hvisited : Visited s l scan) (h : Counted s l scan) {i : EntryRef}
    (hi : i ∉ l) : Counted s (l ++ [i]) (rtVisit key scan i) := by
  have hed : (scan.s.entry i).ed = (s.entry i).ed := by rw [h.ed, if_neg hi]
  refine ⟨fun j => ?_, fun v => ?_⟩
  · rw [rtVisit, setSd_entry, setEd_ed]
    by_cases hji : j = i
    · rw [if_pos hji, hji, if_pos (by simp), hed]
    · rw [if_neg hji, h.ed]
      simp [hji]
  · rw [rtVisit, setSd_sd]
    dsimp only
    rw [hed, hvisited.touches.vcpuid]
    cases hmissed : (s.entry i).ed.missed with
    | false =>
        rw [if_neg (by decide), h.console]
        simp [or_and_right, exists_or, hmissed]
    | true =>
        rw [if_pos rfl, List.mem_append, h.console, or_assoc]
        simp [or_and_right, exists_or, hmissed, @eq_comm _ v]

theorem counted_rtScan (key : EntryDataRt → U32) {s : SchedulerRt} (h : s.sd.runqueue.Nodup) :
    Counted s s.sd.runqueue (rtScan key s) := by
  refine (rtScan_induction key s (P := fun l scan => Visited s l scan ∧ Counted s l scan)
    ⟨⟨.refl _ _, rfl, rfl, by simp⟩, by simp, by simp⟩ ?_).2
  rintro l i scan hl ⟨hvisited, hcounted⟩
  exact ⟨hvisited.visit i, hcounted.visit hvisited (notMem_of_concat hl h)⟩

/-! ## A call -/

theorem rtChoose_touches {key : EntryDataRt → U32} {scan : RtScan} {s' : SchedulerRt}
    {next : Option EntryRef} (h : rtChoose key scan = some (s', next)) :
    Scheduler.Touches scan.s.sd.current.toList scan.s s' ∧ s'.sd = scan.s.sd ∧
      (∀ i, (s'.entry i).ed = (scan.s.entry i).ed) ∧
      (next = scan.nextEd ∨ next = scan.s.sd.current) := by
  rw [rtChoose] at h
  cases hcur : scan.s.sd.current with
  | none =>
      simp only [hcur, Option.some.injEq, Prod.mk.injEq] at h
      rw [← h.1, ← h.2]
      exact ⟨.refl _ _, rfl, fun _ => rfl, .inl rfl⟩
  | some cur =>
      simp only [hcur] at h
      split at h
      · simp only [Option.some.injEq, Prod.mk.injEq] at h
        rw [← h.1, ← h.2]
        exact ⟨touches_setState (by simp) (by decide) _, rfl, fun i => setState_ed .., .inl rfl⟩
      · obtain ⟨found, hfound, hnext⟩ := Option.map_eq_some_iff.mp h
        split at hnext
        · simp only [Prod.mk.injEq] at hnext
          rw [← hnext.1, ← hnext.2, hfound]
          exact ⟨.refl _ _, rfl, fun _ => rfl, .inl rfl⟩
        · simp only [Prod.mk.injEq] at hnext
          rw [← hnext.1, ← hnext.2]
          exact ⟨.refl _ _, rfl, fun _ => rfl, .inr rfl⟩

theorem rtDoSchedule_eq_some {key : EntryDataRt → U32} {now expiration expiration' : U64}
    {s s' : SchedulerRt} {v : VcpuId}
    (h : rtDoSchedule key now expiration s = some (s', v, expiration')) :
    ∃ mid next, rtChoose key (rtScan key (rtTick s)) = some (mid, some next) ∧
      s' = rtRun next mid ∧ v = (mid.entry next).vcpuid := by
  rw [rtDoSchedule] at h
  dsimp only at h
  split at h
  · simp at h
  · obtain ⟨⟨mid, next⟩, hchoose, h⟩ := Option.bind_eq_some_iff.mp h
    cases next with
    | none => simp at h
    | some next =>
        simp only [Option.bind_eq_bind, Option.bind_some, Option.some.injEq, Prod.mk.injEq] at h
        exact ⟨mid, next, hchoose, h.1.symm, h.2.1.symm⟩

@[simp]
theorem rtRun_sd (next : EntryRef) (s : SchedulerRt) :
    (rtRun next s).sd = { s.sd with current := some next } := rfl

theorem rtRun_ed (next : EntryRef) (s : SchedulerRt) (i : EntryRef) :
    ((rtRun next s).entry i).ed =
      if i = next then { (s.entry i).ed with budgetCntdn := (s.entry i).ed.budgetCntdn - 1 }
      else (s.entry i).ed := by
  simp only [rtRun, setEd_ed, setSd_entry, setState_ed]
  by_cases hi : i = next
  · rw [if_pos hi, if_pos hi, hi]
  · rw [if_neg hi, if_neg hi]

theorem rtRun_touches {next : EntryRef} {active : List EntryRef} (h : next ∈ active)
    (s : SchedulerRt) : Scheduler.Touches active s (rtRun next s) :=
  (touches_setState h (by decide) s).trans
    ((touches_setSd active _ _).trans (touches_setEd active ..))

/-- A call runs an entry that the policy knows of, and forgets none in the queue. -/
theorem rtDoSchedule_touches {key : EntryDataRt → U32} {now expiration expiration' : U64}
    {s s' : SchedulerRt} {v : VcpuId}
    (h : rtDoSchedule key now expiration s = some (s', v, expiration')) :
    Scheduler.Touches s.sd.refs s s' ∧ s'.sd.runqueue = s.sd.runqueue ∧
      ∃ next ∈ s.sd.refs, s'.sd.current = some next := by
  obtain ⟨mid, next, hchoose, rfl, rfl⟩ := rtDoSchedule_eq_some h
  have hvisited := visited_rtScan key (rtTick s)
  obtain ⟨htouches, hsd, -, hnext⟩ := rtChoose_touches hchoose
  have hcurrent : (rtScan key (rtTick s)).s.sd.current = s.sd.current := hvisited.current
  have hmem : next ∈ s.sd.refs := by
    rw [SchedDataRt.refs, List.mem_append, Option.mem_toList]
    rcases hnext with hnext | hnext
    · exact .inr (hvisited.next next hnext.symm)
    · exact .inl (hcurrent ▸ hnext.symm)
  refine ⟨?_, by rw [rtRun_sd, hsd]; exact hvisited.runqueue, next, hmem, rfl⟩
  have htick : Scheduler.Touches s.sd.refs s (rtTick s) := touches_setSd _ _ _
  refine htick.trans ((hvisited.touches.mono fun i hi => absurd hi List.not_mem_nil).trans
    ((htouches.mono fun i hi => ?_).trans (rtRun_touches hmem mid)))
  rw [hcurrent] at hi
  exact List.mem_append_left _ hi

theorem rtDoSchedule_picks {key : EntryDataRt → U32} {now expiration expiration' : U64}
    {s s' : SchedulerRt} {v : VcpuId}
    (h : rtDoSchedule key now expiration s = some (s', v, expiration')) :
    ∃ i ∈ s.sd.refs, v = (s.entry i).vcpuid := by
  obtain ⟨htouches, -, next, hnext, hcurrent⟩ := rtDoSchedule_touches h
  obtain ⟨mid, i, -, rfl, rfl⟩ := rtDoSchedule_eq_some h
  have hrun : Scheduler.Touches [i] mid (rtRun i mid) := rtRun_touches (by simp) mid
  rw [rtRun_sd, Option.some.injEq] at hcurrent
  refine ⟨i, hcurrent ▸ hnext, ?_⟩
  rw [← hrun.vcpuid, htouches.vcpuid]

end KHypervisor
