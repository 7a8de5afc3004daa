import Mathlib.Algebra.BigOperators.Group.Finset.Piecewise
import Mathlib.Algebra.Order.BigOperators.Group.Finset
import Mathlib.Algebra.Order.Floor.Div

/-!
# Time demand of budgeted tasks

Tasks on one processor, each with a budget of ticks in every period. In a time of `t` ticks that
begins with no work left, the tasks of a set `level` ask for at most `demand level t` ticks. If
that is at most `t`, and if a task of the set runs in every tick in which one of them has budget
left, then the work that is left is never older than `t`: every task with a period of at least
`t` has used up its budget when its period ends (`InTime.left_eq_zero`).

The argument runs along the ticks. Since the last tick at whose end no work was left (`q` ticks
ago), every tick was used by the set, and the account of each task says how often its period has
begun and how many ticks it ran.
-/

namespace TimeDemand

variable {ι : Type*}

/-- A task with `budget` ticks in every `period`. -/
structure Task where
  period : ℕ
  budget : ℕ

/-- The period that a task is in: the ticks that are left of its budget, and those that the
period has lasted. -/
structure Job where
  left : ℕ
  elapsed : ℕ
deriving DecidableEq

/-- The ticks that the tasks of a set ask for in a time of `t` ticks. -/
def demand (task : ι → Task) (level : Finset ι) (t : ℕ) : ℕ :=
  ∑ j ∈ level, t ⌈/⌉ (task j).period * (task j).budget

/-- The account of a task `q` ticks after a time without work: it has begun `begun` periods since,
and run for `ran` ticks. -/
structure Account (task : Task) (q : ℕ) (job : Option Job) (begun ran : ℕ) : Prop where
  absent : job = none → begun = 0 ∧ ran = 0
  served : ∀ J ∈ job, ran + J.left ≤ begun * task.budget
  began : ∀ J ∈ job, ∀ n, begun = n + 1 → n * task.period + J.elapsed ≤ q

/-- Less than `t` ticks ago no task of the set had work left, and all ticks since were used by the
set. -/
def InTime (task : ι → Task) (level : Finset ι) (t : ℕ) (job : ι → Option Job) : Prop :=
  ∃ q < t, ∃ begun ran : ι → ℕ, ∑ j ∈ level, ran j = q ∧
    ∀ j ∈ level, Account (task j) q (job j) (begun j) (ran j)

/-- The period of a task begins: its budget is there again. -/
def Job.begin (task : Task) : Job := ⟨task.budget, 0⟩

def Job.tick (runs : Prop) [Decidable runs] (J : Job) : Job :=
  ⟨if runs then J.left - 1 else J.left, J.elapsed + 1⟩

theorem Job.tick_congr {p q : Prop} [Decidable p] [Decidable q] (h : p ↔ q) (J : Job) :
    J.tick p = J.tick q := by
  simp [tick, h]

variable {task : ι → Task} {level : Finset ι} {t : ℕ} {job job' : ι → Option Job}

theorem inTime_of_left_eq_zero (ht : 0 < t) (h : ∀ j ∈ level, ∀ J ∈ job j, J.left = 0) :
    InTime task level t job := by
  refine ⟨0, ht, fun _ => 0, fun _ => 0, by simp, fun j hj => ⟨fun _ => ⟨rfl, rfl⟩, ?_, ?_⟩⟩
  · intro J hJ
    simp [h j hj J hJ]
  · intro J _ n hn
    simp at hn

theorem Account.begin {T : Task} {q : ℕ} {J' : Option Job} {begun ran : ℕ}
    (h : Account T q J' begun ran) (hJ : ∀ J ∈ J', J.elapsed = T.period) :
    Account T q (some (Job.begin T)) (begun + 1) ran := by
  cases J' with
  | none =>
      obtain ⟨rfl, rfl⟩ := h.absent rfl
      refine ⟨by simp, fun J hmem => ?_, fun J hmem n hn => ?_⟩
      · obtain rfl := Option.mem_some.mp hmem
        simp [Job.begin]
      · obtain rfl := Option.mem_some.mp hmem
        obtain rfl : n = 0 := by omega
        simp [Job.begin]
  | some J₀ =>
      have hserved := h.served J₀ rfl
      have hbegan := h.began J₀ rfl
      rw [hJ J₀ rfl] at hbegan
      refine ⟨by simp, fun J hmem => ?_, fun J hmem n hn => ?_⟩
      · obtain rfl := Option.mem_some.mp hmem
        rw [Nat.succ_mul]
        exact Nat.add_le_add_right (le_of_add_le_left hserved) _
      · obtain rfl := Option.mem_some.mp hmem
        obtain rfl : n = begun := by omega
        cases n with
        | zero => simp [Job.begin]
        | succ m =>
            rw [Nat.succ_mul]
            exact hbegan m rfl

/-- Periods that begin when the ones before are over, or for the first time. -/
theorem InTime.begin (h : InTime task level t job)
    (hjob : ∀ j ∈ level, job' j = job j ∨
      job' j = some (Job.begin (task j)) ∧ ∀ J ∈ job j, J.elapsed = (task j).period) :
    InTime task level t job' := by
  classical
  obtain ⟨q, hq, begun, ran, hran, haccount⟩ := h
  refine ⟨q, hq, fun j => if job' j = job j then begun j else begun j + 1, ran, hran,
    fun j hj => ?_⟩
  dsimp only
  by_cases hsame : job' j = job j
  · rw [if_pos hsame, hsame]
    exact haccount j hj
  · obtain ⟨hbegin, hover⟩ := (hjob j hj).resolve_left hsame
    rw [if_neg hsame, hbegin]
    exact (haccount j hj).begin hover

theorem Account.tick {T : Task} {q : ℕ} {J' : Option Job} {begun ran : ℕ}
    (h : Account T q J' begun ran) (runs : Prop) [Decidable runs]
    (hleft : runs → ∃ J ∈ J', 0 < J.left) :
    Account T (q + 1) (J'.map (Job.tick runs)) begun (ran + if runs then 1 else 0) := by
  cases J' with
  | none =>
      obtain ⟨rfl, rfl⟩ := h.absent rfl
      have hruns : ¬ runs := fun hr => by simpa using hleft hr
      rw [if_neg hruns]
      exact ⟨fun _ => ⟨rfl, rfl⟩, by simp, by simp⟩
  | some J₀ =>
      have hserved := h.served J₀ rfl
      refine ⟨by simp, fun J hmem => ?_, fun J hmem n hn => ?_⟩
      · obtain rfl := Option.mem_some.mp hmem
        by_cases hruns : runs
        · obtain ⟨J, hJ, hpos⟩ := hleft hruns
          obtain rfl := Option.mem_some.mp hJ
          rw [if_pos hruns, Job.tick, if_pos hruns]
          dsimp only
          omega
        · rw [if_neg hruns, Job.tick, if_neg hruns]
          exact hserved
      · obtain rfl := Option.mem_some.mp hmem
        exact Nat.add_le_add_right (h.began J₀ rfl n hn) 1

/-- Since the last time without work a task has begun no more periods than fit in the time. -/
theorem Account.begun_le {T : Task} {q : ℕ} {J' : Option Job} {begun ran : ℕ}
    (h : Account T q J' begun ran) (hT : 0 < T.period) (hJ : ∀ J ∈ J', 0 < J.elapsed) :
    begun ≤ q ⌈/⌉ T.period := by
  cases J' with
  | none => simp [(h.absent rfl).1]
  | some J =>
      cases begun with
      | zero => exact Nat.zero_le _
      | succ n =>
          by_contra hlt
          have hceil : q ⌈/⌉ T.period ≤ n := by omega
          rw [ceilDiv_le_iff_le_mul hT, mul_comm] at hceil
          have hbegan := h.began J rfl n rfl
          have hpos := hJ J rfl
          omega

theorem Account.ran_le {T : Task} {q : ℕ} {J' : Option Job} {begun ran : ℕ}
    (h : Account T q J' begun ran) : ran ≤ begun * T.budget := by
  cases J' with
  | none => simp [(h.absent rfl).2]
  | some J => exact le_of_add_le_left (h.served J rfl)

/-- After `t` ticks that were all used by the set there is no work left. -/
theorem left_eq_zero_of_ran {begun ran : ι → ℕ} (hdemand : demand task level t ≤ t)
    (hperiod : ∀ j ∈ level, 0 < (task j).period) (hran : ∑ j ∈ level, ran j = t)
    (haccount : ∀ j ∈ level, Account (task j) t (job j) (begun j) (ran j))
    (helapsed : ∀ j ∈ level, ∀ J ∈ job j, 0 < J.elapsed) {j : ι} (hj : j ∈ level) {J : Job}
    (hJ : J ∈ job j) : J.left = 0 := by
  by_contra hleft
  have hstrict : ran j < begun j * (task j).budget :=
    lt_of_lt_of_le (Nat.lt_add_of_pos_right (Nat.pos_of_ne_zero hleft))
      ((haccount j hj).served J hJ)
  have hlt : ∑ j ∈ level, ran j < ∑ j ∈ level, begun j * (task j).budget :=
    Finset.sum_lt_sum (fun k hk => (haccount k hk).ran_le) ⟨j, hj, hstrict⟩
  have hle : ∑ j ∈ level, begun j * (task j).budget ≤ demand task level t :=
    Finset.sum_le_sum fun k hk =>
      Nat.mul_le_mul_right _ ((haccount k hk).begun_le (hperiod k hk) (helapsed k hk))
  omega

theorem InTime.tick [DecidableEq ι] (h : InTime task level t job)
    (hdemand : demand task level t ≤ t) (hperiod : ∀ j ∈ level, 0 < (task j).period) {c : ι}
    (hc : c ∈ level) (hleft : ∃ J ∈ job c, 0 < J.left) :
    InTime task level t fun j => (job j).map (Job.tick (j = c)) := by
  obtain ⟨q, hq, begun, ran, hran, haccount⟩ := h
  have hsum : ∑ j ∈ level, (ran j + if j = c then 1 else 0) = q + 1 := by
    rw [Finset.sum_add_distrib, hran, Finset.sum_ite_eq', if_pos hc]
  have hnext : ∀ j ∈ level, Account (task j) (q + 1) ((job j).map (Job.tick (j = c))) (begun j)
      (ran j + if j = c then 1 else 0) := fun j hj =>
    (haccount j hj).tick (j = c) fun hjc => hjc ▸ hleft
  by_cases hlast : q + 1 < t
  · exact ⟨q + 1, hlast, begun, _, hsum, hnext⟩
  · -- The time is up, and what was asked for has been served.
    obtain rfl : q + 1 = t := by omega
    refine inTime_of_left_eq_zero (Nat.succ_pos q) fun j hj J hJ => ?_
    refine left_eq_zero_of_ran hdemand hperiod hsum hnext (fun k _ K hK => ?_) hj hJ
    obtain ⟨K', -, rfl⟩ := Option.mem_map.mp hK
    exact Nat.succ_pos _

/-- Work is never as old as `t`. -/
theorem InTime.left_eq_zero (h : InTime task level t job) {i : ι} (hi : i ∈ level) {J : Job}
    (hJ : J ∈ job i) (helapsed : t ≤ J.elapsed) : J.left = 0 := by
  obtain ⟨q, hq, begun, ran, -, haccount⟩ := h
  have hserved := (haccount i hi).served J hJ
  cases hbegun : begun i with
  | zero =>
      rw [hbegun, Nat.zero_mul] at hserved
      omega
  | succ n =>
      have hbegan := (haccount i hi).began J hJ n hbegun
      omega

end TimeDemand
