import KHypervisor.Lib.TimeDemand

/-!
# Blocks of ticks

The ticks since a task began its first period are recorded with whom they were given to. A task
that runs only while it has budget left gets no more ticks than its budget in any of its periods,
which are the blocks that the record is cut into.
-/

namespace TimeDemand

variable {ι : Type*} [DecidableEq ι]

/-- The block number `n` of `p` ticks. -/
def block {ι : Type*} (p n : ℕ) (ticks : List ι) : List ι := (ticks.drop (n * p)).take p

/-- The account of `a`, which is in its period number `n`: what it got in this period is what is
gone of the budget, and it got no more than the budget in any before. -/
structure Served (task : Task) (a : ι) (ticks : List ι) (J : Job) (n : ℕ) : Prop where
  length : ticks.length = n * task.period + J.elapsed
  elapsed : J.elapsed ≤ task.period
  current : (ticks.drop (n * task.period)).count a + J.left = task.budget
  past : ∀ m < n, (block task.period m ticks).count a ≤ task.budget

variable {task : Task} {a : ι} {ticks : List ι} {J : Job} {n : ℕ}

theorem served_begin (task : Task) (a : ι) : Served task a [] (Job.begin task) 0 := by
  refine ⟨(Nat.zero_mul _).symm, Nat.zero_le _, ?_, fun m hm => absurd hm (Nat.not_lt_zero m)⟩
  rw [List.drop_nil, List.count_nil]
  exact Nat.zero_add _

theorem Served.begin (h : Served task a ticks J n) (hover : J.elapsed = task.period) :
    Served task a ticks (Job.begin task) (n + 1) := by
  have hlength : ticks.length = (n + 1) * task.period := by
    rw [h.length, hover, Nat.succ_mul]
  refine ⟨hlength, Nat.zero_le _, ?_, fun m hm => ?_⟩
  · rw [List.drop_eq_nil_of_le hlength.le, List.count_nil]
    exact Nat.zero_add _
  · rcases Nat.lt_succ_iff_lt_or_eq.mp hm with hm | rfl
    · exact h.past m hm
    · calc (block task.period m ticks).count a
          ≤ (ticks.drop (m * task.period)).count a := (List.take_sublist _ _).count_le a
        _ ≤ task.budget := Nat.le_of_add_right_le h.current.le

/-- A tick of the period goes to `x`, to `a` itself only if that has budget left. -/
theorem Served.tick (h : Served task a ticks J n) (hlt : J.elapsed < task.period) {x : ι}
    (hx : x = a → 0 < J.left) : Served task a (ticks ++ [x]) (J.tick (x = a)) n := by
  have hle : n * task.period ≤ ticks.length := Nat.le_of_add_right_le h.length.ge
  refine ⟨?_, hlt, ?_, fun m hm => ?_⟩
  · rw [List.length_append, h.length]
    exact Nat.add_assoc ..
  · have hcurrent := h.current
    rw [List.drop_append_of_le_length hle, List.count_append, List.count_singleton, Job.tick]
    dsimp only
    by_cases hxa : x = a
    · have hleft := hx hxa
      rw [if_pos (beq_iff_eq.mpr hxa), if_pos hxa]
      omega
    · rw [if_neg fun heq => hxa (beq_iff_eq.mp heq), if_neg hxa]
      exact hcurrent
  · -- the blocks before are full, so the new tick is in none of them
    have hfull : (m + 1) * task.period ≤ ticks.length :=
      (Nat.mul_le_mul_right _ (Nat.succ_le_of_lt hm)).trans hle
    rw [Nat.succ_mul] at hfull
    rw [block, List.drop_append_of_le_length (Nat.le_of_add_right_le hfull),
      List.take_append_of_le_length (by rw [List.length_drop]; omega)]
    exact h.past m hm

/-- No block has more of `a` than the budget. -/
theorem Served.count_block_le (h : Served task a ticks J n) (m : ℕ) :
    (block task.period m ticks).count a ≤ task.budget := by
  rcases Nat.lt_trichotomy m n with hm | rfl | hm
  · exact h.past m hm
  · calc (block task.period m ticks).count a
        ≤ (ticks.drop (m * task.period)).count a := (List.take_sublist _ _).count_le a
      _ ≤ task.budget := Nat.le_of_add_right_le h.current.le
  · have hlength := h.length
    have helapsed := h.elapsed
    have hmul := Nat.mul_le_mul_right task.period (Nat.succ_le_of_lt hm)
    rw [Nat.succ_mul] at hmul
    rw [block, List.drop_eq_nil_of_le (by omega), List.take_nil, List.count_nil]
    exact Nat.zero_le _

end TimeDemand
