import KHypervisor.Lib.Lists
import KHypervisor.Lib.Run

/-!
# Machines that give turns

The outputs of a machine are turns, and in each of its states there is a queue of those who are to
get them; a turn goes to the first of the queue. If nobody is ever put in front of somebody else,
nobody is overtaken (`outputs_of_queue`). If whoever had a turn goes behind the others, the turns
go round (`outputs_of_cycle`).
-/

namespace Run

variable {S E O : Type*} {step : S → E → Option S} {out : S → E → Option O} {q : S → List O}
  {I : S → Prop} {s : S} {es : List E}

/-- Whoever has `k` others ahead in the queue `q` gets the turn number `k` and none before. -/
theorem outputs_of_queue (hs : I s) (hnodup : ∀ s, I s → (q s).Nodup)
    (hfirst : ∀ s, ∀ e ∈ es, I s → q s ≠ [] → ∀ x ∈ out s e, (q s).head? = some x)
    (hstep : ∀ s, ∀ e ∈ es, ∀ t, I s → step s e = some t →
      I t ∧ (q s).drop (out s e).toList.length <+: q t)
    {k : ℕ} {x : O} (hx : (q s)[k]? = some x) :
    (∀ m < k, (outputs step out s es)[m]? ≠ some x) ∧
      (k < (outputs step out s es).length → (outputs step out s es)[k]? = some x) := by
  induction es generalizing s k with
  | nil =>
      refine ⟨fun m _ => ?_, fun hk => absurd hk (Nat.not_lt_zero k)⟩
      rw [outputs, List.getElem?_nil]
      exact (Option.some_ne_none x).symm
  | cons e es ih =>
      rw [outputs]
      have hrest : ∀ j, ((q s).drop (out s e).toList.length)[j]? = some x →
          let rest := (step s e).elim [] fun t => outputs step out t es
          (∀ m < j, rest[m]? ≠ some x) ∧ (j < rest.length → rest[j]? = some x) := by
        intro j hj
        cases hnext : step s e with
        | none => exact ⟨fun m _ => (Option.some_ne_none x).symm, fun h => absurd h (by simp)⟩
        | some t =>
            obtain ⟨ht, l, hl⟩ := hstep s e List.mem_cons_self t hs hnext
            refine ih ht (fun s' e' he' => hfirst s' e' (List.mem_cons_of_mem _ he'))
              (fun s' e' he' => hstep s' e' (List.mem_cons_of_mem _ he')) ?_
            rw [← hl, List.getElem?_append_left (List.getElem?_eq_some_iff.mp hj).1, hj]
      cases hout : out s e with
      | none =>
          rw [hout] at hrest
          exact hrest k hx
      | some y =>
          have hhead := hfirst s e List.mem_cons_self hs
            (List.ne_nil_of_mem (List.mem_of_getElem? hx)) y hout
          obtain ⟨l, hqueue⟩ := List.head?_eq_some_iff.mp hhead
          rw [hout, hqueue] at hrest
          rw [hqueue] at hx
          rw [Option.toList_some, List.singleton_append]
          cases k with
          | zero => exact ⟨fun m hm => absurd hm (Nat.not_lt_zero m), fun _ => hx⟩
          | succ k =>
              rw [List.getElem?_cons_succ] at hx
              have hnew := hnodup s hs
              rw [hqueue, List.nodup_cons] at hnew
              have hne : y ≠ x := fun heq => hnew.1 (heq ▸ List.mem_of_getElem? hx)
              obtain ⟨hbefore, hturn⟩ := hrest k hx
              refine ⟨fun m hm => ?_, fun hk => ?_⟩
              · cases m with
                | zero => exact fun heq => hne (Option.some.inj heq)
                | succ m =>
                    rw [List.getElem?_cons_succ]
                    exact hbefore m (Nat.lt_of_succ_lt_succ hm)
              · rw [List.getElem?_cons_succ]
                exact hturn (Nat.lt_of_succ_lt_succ hk)

theorem outputs_of_cycle (hs : I s) (hne : q s ≠ [])
    (hfirst : ∀ s, ∀ e ∈ es, I s → q s ≠ [] → ∀ x ∈ out s e, (q s).head? = some x)
    (hstep : ∀ s, ∀ e ∈ es, ∀ t, I s → step s e = some t →
      I t ∧ q t = (q s).rotate (out s e).toList.length)
    {m : ℕ} (hm : m < (outputs step out s es).length) :
    (outputs step out s es)[m]? = (q s)[m % (q s).length]? := by
  induction es generalizing s m with
  | nil => exact absurd hm (Nat.not_lt_zero m)
  | cons e es ih =>
      rw [outputs] at hm ⊢
      have hrest : ∀ j, let rest := (step s e).elim [] fun t => outputs step out t es
          j < rest.length → rest[j]? =
            ((q s).rotate (out s e).toList.length)[j % (q s).length]? := by
        intro j
        cases hnext : step s e with
        | none =>
            intro rest hj
            exact absurd hj (Nat.not_lt_zero j)
        | some t =>
            intro rest hj
            obtain ⟨ht, hqueue⟩ := hstep s e List.mem_cons_self t hs hnext
            have hlength : (q t).length = (q s).length := by
              rw [hqueue, List.length_rotate]
            rw [← hqueue, ← hlength]
            refine ih ht ?_ (fun s' e' he' => hfirst s' e' (List.mem_cons_of_mem _ he'))
              (fun s' e' he' => hstep s' e' (List.mem_cons_of_mem _ he')) hj
            rwa [hqueue, ne_eq, List.rotate_eq_nil_iff]
      cases hout : out s e with
      | none =>
          rw [hout] at hm hrest
          rw [← List.rotate_zero (q s), List.length_rotate]
          exact hrest m hm
      | some y =>
          rw [hout] at hm hrest
          have hhead := hfirst s e List.mem_cons_self hs hne y hout
          rw [Option.toList_some, List.singleton_append] at hm ⊢
          cases m with
          | zero => rw [List.getElem?_cons_zero, Nat.zero_mod, ← List.head?_eq_getElem?, hhead]
          | succ m =>
              rw [List.getElem?_cons_succ, hrest m (Nat.lt_of_succ_lt_succ hm)]
              exact Lists.getElem?_rotate_one hne m

end Run
