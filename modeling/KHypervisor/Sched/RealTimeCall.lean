import KHypervisor.Lib.Scan
import KHypervisor.Sched.RateMonotonic
import KHypervisor.Sched.Scheduler

/-!
# A call of a real-time policy

The loop of `do_schedule` is a scan of the run queue, in which the entries with budget left are
ready, the key is that of the policy, and the bound that an entry brings with it is its period
(`rtScan_eq`). What a call does besides is said once, for both policies, by `RtCall`.
-/

namespace KHypervisor

open Scheduler

/-- An entry has budget left at a call, after its replenishment. -/
def RtReady (s : SchedulerRt) (i : EntryRef) : Prop := 0 < (s.entry i).ed.check.budgetCntdn

instance decidableRtReady (s : SchedulerRt) : DecidablePred (RtReady s) :=
  fun i => inferInstanceAs (Decidable (0 < (s.entry i).ed.check.budgetCntdn))

def rtKey (key : EntryDataRt → U32) (s : SchedulerRt) (i : EntryRef) : ℕ :=
  (key (s.entry i).ed.check).toNat

def rtBound (s : SchedulerRt) (i : EntryRef) : ℕ := (s.entry i).ed.period.toNat

def rtPreferred (key : EntryDataRt → U32) (s : SchedulerRt) : Option EntryRef :=
  Scan.scan (RtReady s) (rtKey key s) (rtBound s) (2 ^ 32 - 1) s.sd.runqueue

def rtCounted (s : SchedulerRt) (i : EntryRef) : EntryDataRt :=
  if i ∈ s.sd.runqueue then (s.entry i).ed.check.count else (s.entry i).ed

def HasLeft (s : SchedulerRt) (i : EntryRef) : Prop := (rtCounted s i).budgetCntdn ≠ 0

instance decidableHasLeft (s : SchedulerRt) (i : EntryRef) : Decidable (HasLeft s i) :=
  inferInstanceAs (Decidable (_ ≠ _))

/-- After the loop one entry is preferred to another. -/
def Before (key : EntryDataRt → U32) (s : SchedulerRt) (i j : EntryRef) : Prop :=
  key (rtCounted s i) < key (rtCounted s j)

instance decidableBefore (key : EntryDataRt → U32) (s : SchedulerRt) (i j : EntryRef) :
    Decidable (Before key s i j) :=
  inferInstanceAs (Decidable (_ < _))

/-- From `s` to `s'` a call has found entry `p` in the queue, and lets entry `x` run. -/
structure RtCall (key : EntryDataRt → U32) (s s' : SchedulerRt) (p x : EntryRef) : Prop where
  preferred : rtPreferred key s = some p
  chosen : x = p ∧ (∀ c ∈ s.sd.current, HasLeft s c → Before key s p c) ∨
    s.sd.current = some x ∧ HasLeft s x ∧ ¬ Before key s p x
  vcpuid : ∀ i, (s'.entry i).vcpuid = (s.entry i).vcpuid
  standby : s'.standbyEntries = s.standbyEntries
  nrEntries : s'.nrEntries = s.nrEntries
  current : s'.sd.current = some x
  runqueue : s'.sd.runqueue = s.sd.runqueue
  ed : ∀ i, (s'.entry i).ed = if i = x then
      { rtCounted s i with budgetCntdn := (rtCounted s i).budgetCntdn - 1 }
    else rtCounted s i
  state : ∀ i, (s'.entry i).state = if i = x then .running
    else if s.sd.current = some i ∧ ¬ HasLeft s i then .waiting
    else (s.entry i).state

variable {key : EntryDataRt → U32} {s s' s'' : SchedulerRt} {p x i : EntryRef}

theorem RtCall.congr (h : RtCall key s s' p x) (hsame : SameEntries s' s'') :
    RtCall key s s'' p x where
  preferred := h.preferred
  chosen := h.chosen
  vcpuid i := by rw [hsame.entry, h.vcpuid]
  standby := hsame.standby.trans h.standby
  nrEntries := hsame.nrEntries.trans h.nrEntries
  current := by rw [hsame.sd, h.current]
  runqueue := by rw [hsame.sd, h.runqueue]
  ed i := by rw [hsame.entry, h.ed]
  state i := by rw [hsame.entry, h.state]

/-! ## The loop -/

/-- The loop has scanned the entries of `l`. -/
structure Scanned (key : EntryDataRt → U32) (s : SchedulerRt) (l : List EntryRef) (scan : RtScan) :
    Prop where
  next : scan.nextEd = Scan.scan (RtReady s) (rtKey key s) (rtBound s) (2 ^ 32 - 1) l
  minPeriod : scan.minPeriod.toNat = scan.nextEd.elim (2 ^ 32 - 1) (rtBound s)

theorem Scanned.visit {l : List EntryRef} {scan : RtScan} (h : Scanned key s l scan)
    (hed : (scan.s.entry i).ed = (s.entry i).ed) :
    Scanned key s (l ++ [i]) (rtVisit key scan i) := by
  have hfound : (0 < (s.entry i).ed.check.budgetCntdn ∧
      key (s.entry i).ed.check < scan.minPeriod) ↔
      RtReady s i ∧ rtKey key s i < scan.nextEd.elim (2 ^ 32 - 1) (rtBound s) := by
    rw [← h.minPeriod]
    exact and_congr_right fun _ => BitVec.lt_def
  have hnext : (rtVisit key scan i).nextEd =
      Scan.visit (RtReady s) (rtKey key s) (rtBound s) (2 ^ 32 - 1) scan.nextEd i := by
    rw [rtVisit, hed, Scan.visit]
    exact if_congr hfound rfl rfl
  refine ⟨by rw [hnext, h.next, Scan.scan_concat], ?_⟩
  rw [hnext, Scan.visit, rtVisit, hed]
  dsimp only
  by_cases hprefer : RtReady s i ∧ rtKey key s i < scan.nextEd.elim (2 ^ 32 - 1) (rtBound s)
  · rw [if_pos (hfound.mpr hprefer), if_pos hprefer, EntryDataRt.check_period]
    rfl
  · rw [if_neg fun hall => hprefer (hfound.mp hall), if_neg hprefer, h.minPeriod]

theorem scanned_rtScan (key : EntryDataRt → U32) (hnodup : s.sd.runqueue.Nodup) :
    Scanned key s s.sd.runqueue (rtScan key s) := by
  refine (rtScan_induction key s
    (P := fun l scan => Visited s l scan ∧ Counted s l scan ∧ Scanned key s l scan)
    ⟨⟨.refl _ _, rfl, rfl, by simp⟩, ⟨by simp, by simp⟩, rfl, rfl⟩ ?_).2.2
  rintro l i scan hl ⟨hvisited, hcounted, hscanned⟩
  have hnew := notMem_of_concat hl hnodup
  refine ⟨hvisited.visit i, hcounted.visit hvisited hnew, hscanned.visit ?_⟩
  rw [hcounted.ed, if_neg hnew]

theorem rtScan_eq (key : EntryDataRt → U32) (hnodup : s.sd.runqueue.Nodup) :
    (rtScan key s).nextEd = rtPreferred key s :=
  (scanned_rtScan key hnodup).next

/-! ## The choice -/

/-- The choice puts a current entry that is out of budget aside, and prefers the current entry that
is not to the one found, unless that has a smaller key. -/
theorem rtChoose_eq_some {scan : RtScan} {mid : SchedulerRt}
    (h : rtChoose key scan = some (mid, some x)) :
    (∀ i, (mid.entry i).state =
      if scan.s.sd.current = some i ∧ ¬ (scan.s.entry i).ed.budgetCntdn ≠ 0 then .waiting
      else (scan.s.entry i).state) ∧
    ∃ p, scan.nextEd = some p ∧
      (x = p ∧ (∀ c ∈ scan.s.sd.current, (scan.s.entry c).ed.budgetCntdn ≠ 0 →
        key (scan.s.entry p).ed < key (scan.s.entry c).ed) ∨
      scan.s.sd.current = some x ∧ (scan.s.entry x).ed.budgetCntdn ≠ 0 ∧
        ¬ key (scan.s.entry p).ed < key (scan.s.entry x).ed) := by
  rw [rtChoose] at h
  cases hcur : scan.s.sd.current with
  | none =>
      simp only [hcur, Option.some.injEq, Prod.mk.injEq] at h
      refine ⟨fun i => ?_, x, h.2, Or.inl ⟨rfl, fun c hc => absurd hc (Option.not_mem_none c)⟩⟩
      rw [if_neg fun hall => Option.some_ne_none i hall.1.symm, h.1]
  | some cur =>
      simp only [hcur] at h
      by_cases hout : (scan.s.entry cur).ed.budgetCntdn = 0
      · rw [if_pos hout, Option.some.injEq, Prod.mk.injEq] at h
        refine ⟨fun i => ?_, x, h.2, Or.inl ⟨rfl, fun c hc hleft => ?_⟩⟩
        · rw [← h.1, setState_state]
          refine if_congr ⟨fun hi => ⟨congrArg some hi.symm, ?_⟩, fun hi => ?_⟩ rfl rfl
          · rw [hi]
            exact not_not.mpr hout
          · exact (Option.some.inj hi.1).symm
        · rw [← Option.mem_some.mp hc] at hleft
          exact absurd hout hleft
      · rw [if_neg hout] at h
        obtain ⟨p, hp, hnext⟩ := Option.map_eq_some_iff.mp h
        have hkeep : ∀ i, (scan.s.entry i).state =
            if some cur = some i ∧ ¬ (scan.s.entry i).ed.budgetCntdn ≠ 0 then .waiting
            else (scan.s.entry i).state := fun i => by
          refine (if_neg fun hall => ?_).symm
          rw [← Option.some.inj hall.1] at hall
          exact hall.2 hout
        by_cases hlt : key (scan.s.entry p).ed < key (scan.s.entry cur).ed
        · rw [if_pos hlt, Prod.mk.injEq, Option.some.injEq] at hnext
          refine ⟨hnext.1 ▸ hkeep, p, hp, Or.inl ⟨hnext.2.symm, fun c hc _ => ?_⟩⟩
          rw [← Option.mem_some.mp hc]
          exact hlt
        · rw [if_neg hlt, Prod.mk.injEq, Option.some.injEq] at hnext
          refine ⟨hnext.1 ▸ hkeep, p, hp, Or.inr ⟨congrArg some hnext.2, ?_⟩⟩
          rw [← hnext.2]
          exact ⟨hout, hlt⟩

/-! ## A call -/

/-- A call that returns is one of `RtCall`. -/
theorem rtDoSchedule_call {now expiration expiration' : U64} {v : VcpuId}
    (hnodup : s.sd.runqueue.Nodup)
    (h : rtDoSchedule key now expiration s = some (s', v, expiration')) :
    ∃ p x, RtCall key s s' p x ∧ v = (s.entry x).vcpuid := by
  obtain ⟨htouches, hqueue, -⟩ := rtDoSchedule_touches h
  obtain ⟨mid, x, hchoose, rfl, rfl⟩ := rtDoSchedule_eq_some h
  have hvisited := visited_rtScan key (rtTick s)
  have hcounted : ∀ i, ((rtScan key (rtTick s)).s.entry i).ed = rtCounted s i :=
    (counted_rtScan key (s := rtTick s) hnodup).ed
  have hcurrent : (rtScan key (rtTick s)).s.sd.current = s.sd.current := hvisited.current
  have hstate : ∀ i, ((rtScan key (rtTick s)).s.entry i).state = (s.entry i).state := fun i => by
    rcases hvisited.touches.state i with hsame | ⟨hi, -⟩
    · exact hsame
    · exact absurd hi List.not_mem_nil
  have hpreferred : (rtScan key (rtTick s)).nextEd = rtPreferred key s :=
    rtScan_eq key (s := rtTick s) hnodup
  obtain ⟨-, hsd, hed, -⟩ := rtChoose_touches hchoose
  obtain ⟨hmid, p, hp, hchosen⟩ := rtChoose_eq_some hchoose
  simp only [hcounted, hcurrent, hstate] at hmid hchosen hed
  refine ⟨p, x, ⟨hpreferred ▸ hp, hchosen, htouches.vcpuid, htouches.standby, htouches.nrEntries,
    rfl, hqueue, fun i => ?_, fun i => ?_⟩, ?_⟩
  · rw [rtRun_ed, hed]
  · rw [rtRun, setEd_state, setSd_entry, setState_state]
    exact if_congr Iff.rfl rfl (hmid i)
  · have hrun : Scheduler.Touches [x] mid (rtRun x mid) := rtRun_touches (by simp) mid
    rw [← hrun.vcpuid, htouches.vcpuid]

theorem rtDoSchedule_isSome (hnodup : s.sd.runqueue.Nodup)
    (h : (rtPreferred key s).isSome = true) (now expiration : U64) :
    (rtDoSchedule key now expiration s).isSome = true := by
  obtain ⟨p, hp⟩ := Option.isSome_iff_exists.mp h
  have hqueue : s.sd.runqueue ≠ [] := fun hnil => by
    rw [rtPreferred, hnil] at hp
    cases hp
  have hnext : (rtScan key (rtTick s)).nextEd = some p :=
    (rtScan_eq key (s := rtTick s) hnodup).trans hp
  obtain ⟨mid, x, hchoose⟩ :
      ∃ mid x, rtChoose key (rtScan key (rtTick s)) = some (mid, some x) := by
    rw [rtChoose, hnext]
    cases (rtScan key (rtTick s)).s.sd.current with
    | none => exact ⟨_, _, rfl⟩
    | some cur =>
        dsimp only
        split_ifs
        · exact ⟨_, _, rfl⟩
        · rw [Option.map_some]
          split_ifs
          · exact ⟨_, _, rfl⟩
          · exact ⟨_, _, rfl⟩
  obtain ⟨expiration', hcall⟩ := rtDoSchedule_of_choose hqueue hchoose now expiration
  rw [hcall]
  rfl

end KHypervisor
