import KHypervisor.Timer.Timers

/-!
# Whom an interrupt calls back

`timer_maintenance` programs the processor with the tick in which the nearest expiration lies, the
division rounding down. `timer_irq_handler` calls the armed timers of the processor's list whose
expiration is before the time at which the tick begins, and no others (`calledBack_eq`). So an
interrupt that is taken in the tick that was programmed calls none of the timers that it was
programmed for, and one that is taken later calls all of them: `servesDeadline_iff`.
-/

namespace KHypervisor

open Links Timers

variable {S : Type}

def logged (callback : TimerRef → U64 → S → U64 × S) : TimerCallback (S × List TimerRef) :=
  fun t expiration s =>
    let r := callback t expiration s.1
    some (r.1, r.2, s.2 ++ [t])

/-- The timers that `timer_irq_handler` calls back, in their order. -/
def calledBack (fuel : ℕ) (conf : TimerConf) (pcpu : PcpuId) (count : U64)
    (callback : TimerRef → U64 → S → U64 × S) (T : Timers) (s : S) : Option (List TimerRef) :=
  (timerIrqHandler fuel conf pcpu count (logged callback) (T, s, [])).map fun r => r.2.2

/-- The timer is armed, and its expiration is before `now`. -/
def Timer.Due (now : U64) (x : Timer) : Prop := x.state = 1 ∧ x.expiration < now

instance decidableDue (now : U64) (x : Timer) : Decidable (x.Due now) :=
  inferInstanceAs (Decidable (_ ∧ _))

/-- An interrupt at `count` calls back the timers of a list that are armed with expiration `m`, and
none whose expiration is later than the time. -/
def ServesDeadline (fuel : ℕ) (conf : TimerConf) (pcpu : PcpuId) (count : U64)
    (callback : TimerRef → U64 → S → U64 × S) (T : Timers) (s : S) (ts : List TimerRef) (m : U64) :
    Prop :=
  ∃ called, calledBack fuel conf pcpu count callback T s = some called ∧
    (∀ t ∈ ts, (T.timer t).state = 1 → (T.timer t).expiration = m → t ∈ called) ∧
    ∀ t ∈ called, (T.timer t).expiration.toNat ≤ count.toNat * conf.resolutionNs.toNat

variable {fuel : ℕ} {conf : TimerConf} {p : PcpuId} {count now : U64}
  {callback : TimerRef → U64 → S → U64 × S} {T : Timers} {ts : List TimerRef}

/-! ## The visits -/

/-- A visit calls back the timer if it is due, and leaves the other timers. -/
theorem visit_logged (callback : TimerRef → U64 → S → U64 × S) (now : U64)
    (timer : TimerRef → Timer) (s : S) (log : List TimerRef) (t : TimerRef) :
    ∃ timer' s', visit (logged callback) now (timer, s, log) t =
        some (timer', s', log ++ if (timer t).Due now then [t] else []) ∧
      ∀ t' ≠ t, timer' t' = timer t' := by
  have hvisit : visit (logged callback) now (timer, s, log) t =
      if (timer t).Due now then
        let r := callback t (timer t).expiration s
        some (Function.update timer t ⟨if r.1 = 0 then 0 else 1, r.1⟩, r.2, log ++ [t])
      else some (timer, s, log) := rfl
  by_cases hdue : (timer t).Due now
  · rw [hvisit, if_pos hdue, if_pos hdue]
    exact ⟨_, _, rfl, fun t' ht' => Function.update_of_ne ht' ..⟩
  · rw [hvisit, if_neg hdue, if_neg hdue, List.append_nil]
    exact ⟨timer, s, rfl, fun _ _ => rfl⟩

/-- The loop over different timers calls back those that are due when it begins. -/
theorem foldlM_visit_logged (callback : TimerRef → U64 → S → U64 × S) (now : U64)
    (hnodup : ts.Nodup) (timer : TimerRef → Timer) (s : S) (log : List TimerRef) :
    ∃ timer' s', ts.foldlM (visit (logged callback) now) (timer, s, log) =
      some (timer', s', log ++ ts.filter fun t => (timer t).Due now) := by
  induction ts generalizing timer s log with
  | nil => exact ⟨timer, s, by simp⟩
  | cons t ts ih =>
      obtain ⟨ht, hnodup⟩ := List.nodup_cons.mp hnodup
      obtain ⟨timer₁, s₁, hvisit, hothers⟩ := visit_logged callback now timer s log t
      obtain ⟨timer₂, s₂, hloop⟩ :=
        ih hnodup timer₁ s₁ (log ++ if (timer t).Due now then [t] else [])
      have hrest : ts.filter (fun t => (timer₁ t).Due now) =
          ts.filter fun t => (timer t).Due now := by
        refine List.filter_congr fun t' ht' => ?_
        rw [hothers t' fun htt => ht (htt ▸ ht')]
      refine ⟨timer₂, s₂, ?_⟩
      rw [List.foldlM_cons, hvisit, Option.bind_eq_bind, Option.bind_some, hloop, hrest,
        List.append_assoc, List.filter_cons]
      by_cases hdue : (timer t).Due now
      · simp [hdue]
      · simp [hdue]

theorem calledBack_eq (hlist : T.active.IsList p ts) (hfuel : ts.length ≤ fuel) (conf : TimerConf)
    (count : U64) (callback : TimerRef → U64 → S → U64 × S) (s : S) :
    calledBack fuel conf p count callback T s =
      some (ts.filter fun t => (T.timer t).Due (timerCountToTimeNs conf count)) := by
  obtain ⟨timer', s', hloop⟩ := foldlM_visit_logged callback (timerCountToTimeNs conf count)
    hlist.nodup T.timer s []
  rw [calledBack, timerIrqHandler_eq hlist hfuel, hloop]
  rfl

/-! ## The tick of a deadline -/

theorem toNat_timerCountToTimeNs (hover : count.toNat * conf.resolutionNs.toNat < 2 ^ 64) :
    (timerCountToTimeNs conf count).toNat = count.toNat * conf.resolutionNs.toNat := by
  rw [timerCountToTimeNs, BitVec.toNat_mul, Nat.mod_eq_of_lt hover]

/-- A time is before the beginning of a tick if and only if it lies in an earlier one. -/
theorem lt_timerCountToTimeNs_iff (hres : 1 ≤ conf.resolutionNs.toNat)
    (hover : count.toNat * conf.resolutionNs.toNat < 2 ^ 64) (m : U64) :
    m < timerCountToTimeNs conf count ↔ timerTimeToCountNs conf m < count := by
  rw [BitVec.lt_def, BitVec.lt_def, toNat_timerCountToTimeNs hover, timerTimeToCountNs,
    BitVec.toNat_udiv]
  exact (Nat.div_lt_iff_lt_mul hres).symm

/-- An interrupt that is taken when the counter has reached the tick of the earliest deadline serves
it if and only if the counter has passed that tick. -/
theorem servesDeadline_iff (hres : 1 ≤ conf.resolutionNs.toNat) (hlist : T.active.IsList p ts)
    (hfuel : ts.length ≤ fuel) {m : U64}
    (hleast : IsLeast {e | ∃ t ∈ ts, (T.timer t).state = 1 ∧ (T.timer t).expiration = e} m)
    (hcount : timerTimeToCountNs conf m ≤ count)
    (hover : count.toNat * conf.resolutionNs.toNat < 2 ^ 64)
    (callback : TimerRef → U64 → S → U64 × S) (s : S) :
    ServesDeadline fuel conf p count callback T s ts m ↔ count ≠ timerTimeToCountNs conf m := by
  have hcalled := calledBack_eq hlist hfuel conf count callback s
  have hlt := lt_timerCountToTimeNs_iff hres hover m
  constructor
  · rintro ⟨called, hc, hall, -⟩
    obtain rfl := Option.some.inj (hcalled.symm.trans hc)
    obtain ⟨t, ht, hstate, hexp⟩ := hleast.1
    have hdue := of_decide_eq_true (List.mem_filter.mp (hall t ht hstate hexp)).2
    have hbefore := hdue.2
    rw [hexp, hlt] at hbefore
    exact fun heq => absurd hbefore (heq ▸ BitVec.lt_irrefl _)
  · intro hne
    have hpast : timerTimeToCountNs conf m < count :=
      BitVec.not_le.mp fun hle => hne (BitVec.le_antisymm hle hcount)
    have hbefore := hlt.mpr hpast
    refine ⟨_, hcalled, fun t ht hstate hexp => ?_, fun t ht => ?_⟩
    · refine List.mem_filter.mpr ⟨ht, decide_eq_true ⟨hstate, ?_⟩⟩
      rw [hexp]
      exact hbefore
    · have hdue := (of_decide_eq_true (List.mem_filter.mp ht).2).2
      rw [BitVec.lt_def, toNat_timerCountToTimeNs hover] at hdue
      exact hdue.le

/-- The timers when that of the first scheduler has been registered and set to time 25. -/
def setTo25 : Timers :=
  ((tmRegisterTimer 0 (.sched 0) (.init default default)).bind
    (tmSetTimer 1 ⟨10, false⟩ 0 (.sched 0) 25 true)).getD (.init default default)

/-- With ticks of 10 ns, an interrupt that is taken one tick late. -/
theorem servesDeadline_iff_late :
    ServesDeadline 1 ⟨10, false⟩ 0 3 (fun _ e s => (e + 100, s)) setTo25 () [.sched 0] 25 ↔
      (3 : U64) ≠ timerTimeToCountNs ⟨10, false⟩ 25 := by
  have hlist : setTo25.active.IsList 0 [.sched 0] :=
    ⟨show Links.Linked .. ∧ Links.Linked .. from ⟨⟨rfl, rfl⟩, rfl, rfl⟩, by decide⟩
  refine servesDeadline_iff (by decide) hlist (by decide) ?_ (by decide) (by decide) _ ()
  refine ⟨⟨.sched 0, List.mem_singleton_self _, rfl, rfl⟩, ?_⟩
  rintro e ⟨t, ht, -, rfl⟩
  rw [List.mem_singleton.mp ht]
  decide

/-- The processor is programmed with tick 2. An interrupt in that tick calls nothing back, and
programs the processor with tick 2 again. -/
theorem programmed_tick_not_served :
    (setTo25.hw 0).cval = some 2 ∧
    (calledBack 1 ⟨10, false⟩ 0 2 (fun _ e s => (e + 100, s)) setTo25 () = some []) ∧
    ((timerIrqHandler 1 ⟨10, false⟩ 0 2 (logged fun _ e s => (e + 100, s))
      (setTo25, (), [])).map fun r => ((r.1.hw 0).cval, (r.1.timer (.sched 0)).expiration)) =
        some (some 2, 25) ∧
    ¬ ServesDeadline 1 ⟨10, false⟩ 0 2 (fun _ e s => (e + 100, s)) setTo25 () [.sched 0] 25 := by
  refine ⟨rfl, rfl, rfl, ?_⟩
  rintro ⟨called, hcalled, hall, -⟩
  obtain rfl := Option.some.inj hcalled
  exact List.not_mem_nil (hall (.sched 0) (List.mem_singleton_self _) rfl rfl)

end KHypervisor
