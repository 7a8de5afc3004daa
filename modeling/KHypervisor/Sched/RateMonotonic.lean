import KHypervisor.Sched.RealTime

/-!
# A call of the rate-monotonic policy

When an entry in the run queue has budget left, `sched_rm_do_schedule` returns, and the entry it
lets run is one in the queue with budget left and the shortest period of those
(`schedRmDoSchedule_spec`).
-/

namespace KHypervisor

open Scheduler

/-- What the loop has found after the entries of `l`: the entry with the shortest period of those
that have budget left. -/
structure Selected (s : SchedulerRt) (l : List EntryRef) (scan : RtScan) : Prop where
  next : ∀ n ∈ scan.nextEd, 0 < (s.entry n).ed.check.budgetCntdn ∧
    scan.minPeriod = (s.entry n).ed.period
  none : scan.nextEd = none → scan.minPeriod = 0xFFFFFFFF
  min : ∀ i ∈ l, 0 < (s.entry i).ed.check.budgetCntdn → scan.minPeriod ≤ (s.entry i).ed.period

theorem Selected.visit {s : SchedulerRt} {l : List EntryRef} {scan : RtScan}
    (h : Selected s l scan) {i : EntryRef} (hed : (scan.s.entry i).ed = (s.entry i).ed) :
    Selected s (l ++ [i]) (rtVisit EntryDataRt.period scan i) := by
  have hvisit : (rtVisit EntryDataRt.period scan i).nextEd =
        (if 0 < (s.entry i).ed.check.budgetCntdn ∧
            (s.entry i).ed.period < scan.minPeriod then some i
        else scan.nextEd) ∧
      (rtVisit EntryDataRt.period scan i).minPeriod =
        if 0 < (s.entry i).ed.check.budgetCntdn ∧ (s.entry i).ed.period < scan.minPeriod then
          (s.entry i).ed.period
        else scan.minPeriod := by
    simp only [rtVisit, hed, EntryDataRt.check_period, and_self]
  obtain ⟨hnext, hmin⟩ := hvisit
  by_cases hfound : 0 < (s.entry i).ed.check.budgetCntdn ∧ (s.entry i).ed.period < scan.minPeriod
  · rw [if_pos hfound] at hnext hmin
    refine ⟨fun n hn => ?_, fun hnone => ?_, fun j hj hbudget => ?_⟩
    · rw [hnext, Option.mem_some] at hn
      rw [← hn]
      exact ⟨hfound.1, hmin⟩
    · rw [hnext] at hnone
      simp at hnone
    · rw [hmin]
      rcases List.mem_append.mp hj with hj | hj
      · exact BitVec.le_trans (BitVec.le_of_lt hfound.2) (h.min j hj hbudget)
      · rw [List.mem_singleton.mp hj]
        exact BitVec.le_refl _
  · rw [if_neg hfound] at hnext hmin
    refine ⟨fun n hn => ?_, fun hnone => ?_, fun j hj hbudget => ?_⟩
    · rw [hmin]
      exact h.next n (hnext ▸ hn)
    · rw [hmin]
      exact h.none (hnext ▸ hnone)
    · rw [hmin]
      rcases List.mem_append.mp hj with hj | hj
      · exact h.min j hj hbudget
      · rw [List.mem_singleton.mp hj] at hbudget ⊢
        exact BitVec.not_lt.mp fun hlt => hfound ⟨hbudget, hlt⟩

theorem selected_rtScan {s : SchedulerRt} (h : s.sd.runqueue.Nodup) :
    Selected s s.sd.runqueue (rtScan EntryDataRt.period s) := by
  refine (rtScan_induction EntryDataRt.period s
    (P := fun l scan => Visited s l scan ∧ Counted s l scan ∧ Selected s l scan)
    ⟨⟨.refl _ _, rfl, rfl, by simp⟩, ⟨by simp, by simp⟩, by simp, fun _ => rfl, by simp⟩ ?_).2.2
  rintro l i scan hl ⟨hvisited, hcounted, hselected⟩
  have hnew := notMem_of_concat hl h
  refine ⟨hvisited.visit i, hcounted.visit hvisited hnew, hselected.visit ?_⟩
  rw [hcounted.ed, if_neg hnew]

/-- The entry that a call lets run: one of the queue with budget left, and with the shortest
period of those. -/
structure RunsShortest (s : SchedulerRt) (x : EntryRef) : Prop where
  mem : x ∈ s.sd.runqueue
  budget : 0 < (s.entry x).ed.check.budgetCntdn
  shortest : ∀ i ∈ s.sd.runqueue, 0 < (s.entry i).ed.check.budgetCntdn →
    (s.entry x).ed.period ≤ (s.entry i).ed.period

/-- The policy's data of an entry in the queue after a call, in which the entry may have run. -/
def EntryDataRt.after (runs : Prop) [Decidable runs] (ed : EntryDataRt) : EntryDataRt :=
  { ed.check.count with
    budgetCntdn := if runs then ed.check.budgetCntdn - 1 else ed.check.budgetCntdn }

theorem EntryDataRt.after_period (runs : Prop) [Decidable runs] (ed : EntryDataRt) :
    (ed.after runs).period = ed.period := check_period ed

theorem EntryDataRt.after_budget (runs : Prop) [Decidable runs] (ed : EntryDataRt) :
    (ed.after runs).budget = ed.budget := check_budget ed

/-- The choice between the entry found and the current one is that of an entry with the shortest
period. -/
theorem rtChoose_shortest {s : SchedulerRt} (hnodup : s.sd.runqueue.Nodup)
    (hcurrent : ∀ i ∈ s.sd.current, i ∈ s.sd.runqueue)
    (hbudget : ∃ i ∈ s.sd.runqueue, 0 < (s.entry i).ed.check.budgetCntdn ∧
      (s.entry i).ed.period < 0xFFFFFFFF) :
    ∃ mid x, rtChoose EntryDataRt.period (rtScan EntryDataRt.period s) = some (mid, some x) ∧
      RunsShortest s x := by
  have hvisited := visited_rtScan EntryDataRt.period s
  have hcounted := counted_rtScan EntryDataRt.period hnodup
  have hselected := selected_rtScan hnodup
  generalize rtScan EntryDataRt.period s = scan at *
  obtain ⟨n, hn⟩ : ∃ n, scan.nextEd = some n := by
    refine Option.ne_none_iff_exists'.mp fun hnone => ?_
    obtain ⟨i, hi, hpos, hlt⟩ := hbudget
    have hmin := hselected.min i hi hpos
    rw [hselected.none hnone] at hmin
    exact BitVec.not_le.mpr hlt hmin
  obtain ⟨hnpos, hnmin⟩ := hselected.next n hn
  have hnext : RunsShortest s n :=
    ⟨hvisited.next n hn, hnpos, fun i hi hpos => hnmin ▸ hselected.min i hi hpos⟩
  have hperiod : ∀ i, (scan.s.entry i).ed.period = (s.entry i).ed.period := fun i => by
    rw [hcounted.ed]
    split
    · exact EntryDataRt.check_period _
    · rfl
  rw [rtChoose, hvisited.current]
  cases hcur : s.sd.current with
  | none => exact ⟨scan.s, n, by rw [hn], hnext⟩
  | some cur =>
      have hmem := hcurrent cur hcur
      have hcurbudget : (scan.s.entry cur).ed.budgetCntdn = (s.entry cur).ed.check.budgetCntdn := by
        rw [hcounted.ed, if_pos hmem]
        rfl
      dsimp only
      rw [hcurbudget, hn, Option.map_some, hperiod, hperiod]
      by_cases hout : (s.entry cur).ed.check.budgetCntdn = 0
      · rw [if_pos hout]
        exact ⟨_, n, rfl, hnext⟩
      · rw [if_neg hout]
        by_cases hpreempt : (s.entry n).ed.period < (s.entry cur).ed.period
        · rw [if_pos hpreempt]
          exact ⟨_, n, rfl, hnext⟩
        · rw [if_neg hpreempt]
          refine ⟨_, cur, rfl, hmem, (BitVec.pos_iff_ne_zero _).mpr hout, fun i hi hpos => ?_⟩
          exact BitVec.le_trans (BitVec.not_lt.mp hpreempt) (hnext.shortest i hi hpos)

/-- From `s` to `s'` a call has let entry `x` run. -/
structure RmCall (s s' : SchedulerRt) (x : EntryRef) : Prop where
  vcpuid : ∀ i, (s'.entry i).vcpuid = (s.entry i).vcpuid
  nrEntries : s'.nrEntries = s.nrEntries
  runs : RunsShortest s x
  current : s'.sd.current = some x
  runqueue : s'.sd.runqueue = s.sd.runqueue
  ed : ∀ i, (s'.entry i).ed =
    if i ∈ s.sd.runqueue then (s.entry i).ed.after (i = x) else (s.entry i).ed
  console : ∀ v, v ∈ s'.sd.console ↔
    v ∈ s.sd.console ∨ ∃ i ∈ s.sd.runqueue, (s.entry i).vcpuid = v ∧ (s.entry i).ed.missed

theorem RmCall.congr {s s' s'' : SchedulerRt} {x : EntryRef} (h : RmCall s s' x)
    (hentry : s''.entry = s'.entry) (hsd : s''.sd = s'.sd) (hnr : s''.nrEntries = s'.nrEntries) :
    RmCall s s'' x where
  vcpuid i := by rw [hentry, h.vcpuid]
  nrEntries := hnr.trans h.nrEntries
  runs := h.runs
  current := by rw [hsd, h.current]
  runqueue := by rw [hsd, h.runqueue]
  ed i := by rw [hentry, h.ed]
  console v := by rw [hsd, h.console]

theorem rtDoSchedule_of_choose {key : EntryDataRt → U32} {s mid : SchedulerRt} {next : EntryRef}
    (hqueue : s.sd.runqueue ≠ []) (hchoose : rtChoose key (rtScan key (rtTick s)) =
      some (mid, some next)) (now expiration : U64) :
    ∃ expiration', rtDoSchedule key now expiration s =
      some (rtRun next mid, (mid.entry next).vcpuid, expiration') := by
  have htick : (rtTick s).sd.runqueue ≠ [] := hqueue
  rw [rtDoSchedule]
  dsimp only
  rw [if_neg htick, hchoose]
  exact ⟨_, rfl⟩

theorem schedRmDoSchedule_spec {s : SchedulerRt} (hnodup : s.sd.runqueue.Nodup)
    (hcurrent : ∀ i ∈ s.sd.current, i ∈ s.sd.runqueue)
    (hbudget : ∃ i ∈ s.sd.runqueue, 0 < (s.entry i).ed.check.budgetCntdn ∧
      (s.entry i).ed.period < 0xFFFFFFFF) (now expiration : U64) :
    ∃ s' expiration' x, schedRmDoSchedule now expiration s =
      some (s', (s.entry x).vcpuid, expiration') ∧ RmCall s s' x := by
  obtain ⟨mid, x, hchoose, hruns⟩ := rtChoose_shortest (s := rtTick s) hnodup hcurrent hbudget
  obtain ⟨i, hi, -⟩ := hbudget
  obtain ⟨expiration', hcall⟩ := rtDoSchedule_of_choose (List.ne_nil_of_mem hi) hchoose now
    expiration
  have hvisited := visited_rtScan EntryDataRt.period (rtTick s)
  have hcounted := counted_rtScan EntryDataRt.period (s := rtTick s) hnodup
  obtain ⟨htouches, hsd, hed, -⟩ := rtChoose_touches hchoose
  have hvcpuid : (mid.entry x).vcpuid = (s.entry x).vcpuid :=
    (htouches.vcpuid x).trans (hvisited.touches.vcpuid x)
  obtain ⟨hall, hqueue, -⟩ := rtDoSchedule_touches hcall
  refine ⟨_, expiration', x, hvcpuid ▸ hcall, hall.vcpuid, hall.nrEntries,
    ⟨hruns.mem, hruns.budget, hruns.shortest⟩, rfl, hqueue, fun i => ?_, fun v => ?_⟩
  · have hmid : (mid.entry i).ed = if i ∈ s.sd.runqueue then (s.entry i).ed.check.count
        else (s.entry i).ed := (hed i).trans (hcounted.ed i)
    rw [rtRun_ed, hmid]
    by_cases hmem : i ∈ s.sd.runqueue
    · rw [if_pos hmem, if_pos hmem, EntryDataRt.after]
      by_cases hix : i = x
      · rw [if_pos hix, if_pos hix]
        rfl
      · rw [if_neg hix, if_neg hix]
        rfl
    · have hix : i ≠ x := fun hix => hmem (hix ▸ hruns.mem)
      rw [if_neg hmem, if_neg hix, if_neg hmem]
  · rw [rtRun_sd, hsd]
    exact hcounted.console v

end KHypervisor
