import Mathlib.Logic.Function.Iterate

/-!
# Loops with a guard

A loop runs its body as long as its guard holds. `HaltsAfter n s` says that from the state `s` it
ends after exactly `n` rounds; `loop` runs it for a bounded number of tests of the guard. The two
agree: `loop_eq_some_iff`.
-/

namespace While

variable {S : Type*} (guard : S → Prop) (body : S → S)

/-- The loop ends after exactly `n` rounds. -/
def HaltsAfter (n : ℕ) (s : S) : Prop :=
  (∀ k < n, guard (body^[k] s)) ∧ ¬ guard (body^[n] s)

/-- The state after the loop, if the guard fails within `fuel` tests. -/
def loop [DecidablePred guard] : ℕ → S → Option S
  | 0, _ => none
  | fuel + 1, s => if guard s then loop fuel (body s) else some s

variable {guard body} {n : ℕ} {s t : S}

theorem haltsAfter_zero : HaltsAfter guard body 0 s ↔ ¬ guard s := by
  rw [HaltsAfter, Function.iterate_zero_apply, and_iff_right]
  intro k hk
  exact absurd hk k.not_lt_zero

theorem haltsAfter_succ :
    HaltsAfter guard body (n + 1) s ↔ guard s ∧ HaltsAfter guard body n (body s) := by
  simp only [HaltsAfter, Function.iterate_succ_apply, Nat.forall_lt_succ_left',
    Function.iterate_zero_apply, and_assoc]

variable [DecidablePred guard]

theorem HaltsAfter.loop_eq_some (h : HaltsAfter guard body n s) {fuel : ℕ} (hfuel : n < fuel) :
    loop guard body fuel s = some (body^[n] s) := by
  induction n generalizing s fuel with
  | zero =>
      obtain ⟨f, rfl⟩ := Nat.exists_eq_succ_of_ne_zero (Nat.ne_zero_of_lt hfuel)
      rw [loop, if_neg (haltsAfter_zero.mp h), Function.iterate_zero_apply]
  | succ n ih =>
      obtain ⟨f, rfl⟩ := Nat.exists_eq_succ_of_ne_zero (Nat.ne_zero_of_lt hfuel)
      obtain ⟨hgo, hrest⟩ := haltsAfter_succ.mp h
      rw [loop, if_pos hgo, ih hrest (Nat.succ_lt_succ_iff.mp hfuel),
        Function.iterate_succ_apply]

/-- The loop comes to `t` within `fuel` tests if and only if it halts there after fewer rounds. -/
theorem loop_eq_some_iff {fuel : ℕ} :
    loop guard body fuel s = some t ↔
      ∃ n < fuel, HaltsAfter guard body n s ∧ body^[n] s = t := by
  constructor
  · intro h
    induction fuel generalizing s with
    | zero => cases h
    | succ fuel ih =>
        rw [loop] at h
        split at h
        · rename_i hgo
          obtain ⟨n, hn, hhalt, ht⟩ := ih h
          refine ⟨n + 1, Nat.succ_lt_succ hn, haltsAfter_succ.mpr ⟨hgo, hhalt⟩, ?_⟩
          rw [Function.iterate_succ_apply, ht]
        · rename_i hstop
          exact ⟨0, fuel.succ_pos, haltsAfter_zero.mpr hstop, Option.some.inj h⟩
  · rintro ⟨n, hn, hhalt, rfl⟩
    exact hhalt.loop_eq_some hn

end While
