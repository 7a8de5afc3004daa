import Mathlib.Data.List.Induction

/-!
# Runs of a machine

A machine takes an event and a state to the next state, or has none. Its runs over lists of events
come with the two rules that facts about all reachable states are proved by: `run_induction` for
an invariant that may speak about the events so far, and `run_total` for a machine that no event
stops in the states of an invariant.
-/

namespace Run

variable {S E : Type*} (step : S → E → Option S)

def run : S → List E → Option S
  | s, [] => some s
  | s, e :: es => (step s e).bind fun t => run t es

@[simp]
theorem run_nil (s : S) : run step s [] = some s := rfl

theorem run_cons (s : S) (e : E) (es : List E) :
    run step s (e :: es) = (step s e).bind fun t => run step t es := rfl

theorem run_append (s : S) (es es' : List E) :
    run step s (es ++ es') = (run step s es).bind fun t => run step t es' := by
  induction es generalizing s with
  | nil => rfl
  | cons e es ih =>
      rw [List.cons_append, run_cons, run_cons, Option.bind_assoc]
      exact congrArg _ (funext ih)

theorem run_concat (s : S) (es : List E) (e : E) :
    run step s (es ++ [e]) = (run step s es).bind fun t => step t e := by
  rw [run_append]
  congr 1
  funext t
  rw [run_cons]
  exact Option.bind_fun_some _

theorem run_concat_eq_some {s t : S} {es : List E} {e : E}
    (h : run step s (es ++ [e]) = some t) :
    ∃ u, run step s es = some u ∧ step u e = some t := by
  rw [run_concat] at h
  exact Option.bind_eq_some_iff.mp h

variable {step}

/-- What holds at first and is kept by every step of the run holds after it. -/
theorem run_induction {s : S} {I : List E → S → Prop} (hnil : I [] s)
    (hstep : ∀ es e u v, run step s es = some u → I es u → step u e = some v → I (es ++ [e]) v)
    {es : List E} {t : S} (h : run step s es = some t) : I es t := by
  induction es using List.reverseRecOn generalizing t with
  | nil =>
      rw [run_nil, Option.some.injEq] at h
      rw [← h]
      exact hnil
  | append_singleton es e ih =>
      obtain ⟨u, hu, ht⟩ := run_concat_eq_some step h
      exact hstep es e u t hu (ih hu) ht

/-- What holds at first and is kept by every event of the list holds after it. -/
theorem run_invariant {I : S → Prop} {s t : S} {es : List E} (h : run step s es = some t)
    (hs : I s) (hstep : ∀ u, ∀ e ∈ es, ∀ v, I u → step u e = some v → I v) : I t := by
  induction es generalizing s with
  | nil =>
      rw [run_nil, Option.some.injEq] at h
      rwa [← h]
  | cons e es ih =>
      obtain ⟨v, hv, hrest⟩ := Option.bind_eq_some_iff.mp h
      exact ih hrest (hstep s e List.mem_cons_self v hs hv)
        fun u e' he' => hstep u e' (List.mem_cons_of_mem _ he')

/-- An invariant whose states take every event of the run makes the run succeed. -/
theorem run_total {I : S → Prop} {s : S} (es : List E) (hs : I s)
    (hstep : ∀ u, ∀ e ∈ es, I u → ∃ v, step u e = some v ∧ I v) :
    ∃ t, run step s es = some t ∧ I t := by
  induction es generalizing s with
  | nil => exact ⟨s, rfl, hs⟩
  | cons e es ih =>
      obtain ⟨v, hv, hinv⟩ := hstep s e List.mem_cons_self hs
      obtain ⟨t, ht, hlast⟩ := ih hinv fun u e' he' => hstep u e' (List.mem_cons_of_mem _ he')
      exact ⟨t, by rw [run_cons, hv, Option.bind_some, ht], hlast⟩

variable (step)

/-- At some point the run took an event in a state with which it satisfies `P`. -/
def Happened (P : S → E → Prop) : S → List E → Prop
  | _, [] => False
  | s, e :: es => P s e ∨ ∃ t, step s e = some t ∧ Happened P t es

/-- All states of the run, the first and the last among them, satisfy `Q`. -/
def Always (Q : S → Prop) : S → List E → Prop
  | s, [] => Q s
  | s, e :: es => Q s ∧ ∀ t, step s e = some t → Always Q t es

def outputs {O : Type*} (out : S → E → Option O) : S → List E → List O
  | _, [] => []
  | s, e :: es => (out s e).toList ++ (step s e).elim [] fun t => outputs out t es

/-- The run does not get stuck, and all its steps, from a state by an event to a state, satisfy
`R`. -/
def Follows (R : S → E → S → Prop) : S → List E → Prop
  | _, [] => True
  | s, e :: es => ∃ t, step s e = some t ∧ R s e t ∧ Follows R t es

/-- A list of events without some of those with property `p`. -/
inductive Drops (p : E → Prop) : List E → List E → Prop
  | nil : Drops p [] []
  | keep {es es' : List E} (e : E) (h : Drops p es es') : Drops p (e :: es) (e :: es')
  | drop {es es' : List E} (e : E) (he : p e) (h : Drops p es es') : Drops p (e :: es) es'

variable {step} {P : S → E → Prop} {Q : S → Prop} {R R' : S → E → S → Prop}

instance decidableHappened [∀ s e, Decidable (P s e)] :
    ∀ (s : S) (es : List E), Decidable (Happened step P s es)
  | _, [] => inferInstanceAs (Decidable False)
  | s, e :: es =>
      match h : step s e with
      | none => decidable_of_iff (P s e) (by simp [Happened, h])
      | some t =>
          have := decidableHappened t es
          decidable_of_iff (P s e ∨ Happened step P t es) (by simp [Happened, h])

theorem happened_concat {s u : S} {es : List E} (h : run step s es = some u) (e : E) :
    Happened step P s (es ++ [e]) ↔ Happened step P s es ∨ P u e := by
  induction es generalizing s with
  | nil =>
      rw [run_nil, Option.some.injEq] at h
      simp [Happened, h]
  | cons e' es ih =>
      obtain ⟨t, ht, hrun⟩ := Option.bind_eq_some_iff.mp h
      simp [Happened, ht, ih hrun, or_assoc]

theorem outputs_concat {O : Type*} {out : S → E → Option O} {s u : S} {es : List E}
    (h : run step s es = some u) (e : E) :
    outputs step out s (es ++ [e]) = outputs step out s es ++ (out u e).toList := by
  induction es generalizing s with
  | nil =>
      rw [run_nil, Option.some.injEq] at h
      rw [h, outputs, List.nil_append, List.nil_append, outputs]
      cases step u e <;> exact List.append_nil _
  | cons e' es ih =>
      obtain ⟨t, ht, hrun⟩ := Option.bind_eq_some_iff.mp h
      rw [List.cons_append, outputs, outputs, ht, Option.elim_some, Option.elim_some, ih hrun,
        List.append_assoc]

/-- Two conditions that agree in the states of an invariant, which only the steps that meet neither
need to keep, happen in the same runs. -/
theorem happened_congr {P' : S → E → Prop} {I : S → Prop} {s : S} {es : List E} (hs : I s)
    (hiff : ∀ u, ∀ e ∈ es, I u → (P u e ↔ P' u e))
    (hinv : ∀ u, ∀ e ∈ es, ∀ v, I u → ¬ P' u e → step u e = some v → I v) :
    Happened step P s es ↔ Happened step P' s es := by
  induction es generalizing s with
  | nil => rfl
  | cons e es ih =>
      have hfirst := hiff s e List.mem_cons_self hs
      rw [Happened, Happened]
      by_cases hP : P' s e
      · exact iff_of_true (Or.inl (hfirst.mpr hP)) (Or.inl hP)
      · refine or_congr hfirst (exists_congr fun t => and_congr_right fun ht => ?_)
        exact ih (hinv s e List.mem_cons_self t hs hP ht)
          (fun u e' he' => hiff u e' (List.mem_cons_of_mem _ he'))
          fun u e' he' => hinv u e' (List.mem_cons_of_mem _ he')

theorem not_happened_false (s : S) (es : List E) : ¬ Happened step (fun _ _ => False) s es := by
  induction es generalizing s with
  | nil => exact id
  | cons e es ih =>
      rintro (hfalse | ⟨t, -, hlater⟩)
      · exact hfalse
      · exact ih t hlater

/-- In the runs without the events that can end an invariant, nothing happens that needs them or is
impossible in its states. -/
theorem not_happened_of_invariant {P' : S → E → Prop} {I : S → Prop} {s : S} {es : List E}
    (hs : I s) (hP : ¬ Happened step P s es)
    (hnot : ∀ u, ∀ e ∈ es, I u → ¬ P u e → ¬ P' u e)
    (hinv : ∀ u, ∀ e ∈ es, ∀ v, I u → ¬ P u e → step u e = some v → I v) :
    ¬ Happened step P' s es := by
  induction es generalizing s with
  | nil => exact id
  | cons e es ih =>
      have hmem : e ∈ e :: es := List.mem_cons_self
      obtain ⟨hfirst, hrest⟩ := not_or.mp hP
      rintro (hnow | ⟨t, ht, hlater⟩)
      · exact hnot s e hmem hs hfirst hnow
      · refine ih (hinv s e hmem t hs hfirst ht) (fun hall => hrest ⟨t, ht, hall⟩) ?_ ?_ hlater
        · exact fun u e' he' => hnot u e' (List.mem_cons_of_mem _ he')
        · exact fun u e' he' => hinv u e' (List.mem_cons_of_mem _ he')

/-- Unless the run takes an event that it must not, an invariant whose states take the other events
makes it succeed. -/
theorem run_total_unless {I : S → Prop} {s : S} (es : List E) (hs : I s)
    (hP : ¬ Happened step P s es)
    (hstep : ∀ u, ∀ e ∈ es, I u → ¬ P u e → ∃ v, step u e = some v ∧ I v) :
    ∃ t, run step s es = some t ∧ I t := by
  induction es generalizing s with
  | nil => exact ⟨s, rfl, hs⟩
  | cons e es ih =>
      obtain ⟨hfirst, hrest⟩ := not_or.mp hP
      obtain ⟨v, hv, hinv⟩ := hstep s e List.mem_cons_self hs hfirst
      obtain ⟨t, ht, hlast⟩ := ih hinv (fun hall => hrest ⟨v, hv, hall⟩)
        fun u e' he' => hstep u e' (List.mem_cons_of_mem _ he')
      exact ⟨t, by rw [run_cons, hv, Option.bind_some, ht], hlast⟩

theorem Always.last {s t : S} {es : List E} (hall : Always step Q s es)
    (h : run step s es = some t) : Q t := by
  induction es generalizing s with
  | nil =>
      rw [run_nil, Option.some.injEq] at h
      rwa [← h]
  | cons e es ih =>
      obtain ⟨u, hu, hrest⟩ := Option.bind_eq_some_iff.mp h
      exact ih (hall.2 u hu) hrest

/-- A property that an invariant implies, which only some events destroy and those destroy at once,
holds throughout exactly the runs without such an event. -/
theorem always_iff_not_happened {I : S → Prop} {s : S} {es : List E} (hs : I s)
    (hQ : ∀ u, I u → Q u) (hstep : ∀ u, ∀ e ∈ es, ∀ v, I u → ¬ P u e → step u e = some v → I v)
    (hbad : ∀ u, ∀ e ∈ es, I u → P u e → ∃ v, step u e = some v ∧ ¬ Q v) :
    Always step Q s es ↔ ¬ Happened step P s es := by
  induction es generalizing s with
  | nil => exact iff_of_true (hQ s hs) id
  | cons e es ih =>
      have hmem : e ∈ e :: es := List.mem_cons_self
      rw [Always, Happened, not_or]
      by_cases hP : P s e
      · obtain ⟨v, hv, hnot⟩ := hbad s e hmem hs hP
        refine iff_of_false (fun hall => ?_) fun hnever => hnever.1 hP
        have hlast := hall.2 v hv
        cases es with
        | nil => exact hnot hlast
        | cons e' es => exact hnot hlast.1
      · have htail : ∀ v, step s e = some v →
            (Always step Q v es ↔ ¬ Happened step P v es) := fun v hv =>
          ih (hstep s e hmem v hs hP hv) (fun u e' he' => hstep u e' (List.mem_cons_of_mem _ he'))
            fun u e' he' => hbad u e' (List.mem_cons_of_mem _ he')
        constructor
        · rintro ⟨-, hall⟩
          refine ⟨hP, ?_⟩
          rintro ⟨v, hv, hlater⟩
          exact (htail v hv).mp (hall v hv) hlater
        · rintro ⟨-, hnever⟩
          exact ⟨hQ s hs, fun v hv => (htail v hv).mpr fun hlater => hnever ⟨v, hv, hlater⟩⟩

/-- A property that an invariant implies holds throughout the runs without the events that can end
the invariant. -/
theorem always_unless {I : S → Prop} {s : S} {es : List E} (hs : I s) (hQ : ∀ u, I u → Q u)
    (hP : ¬ Happened step P s es)
    (hstep : ∀ u, ∀ e ∈ es, ∀ v, I u → ¬ P u e → step u e = some v → I v) :
    Always step Q s es := by
  induction es generalizing s with
  | nil => exact hQ s hs
  | cons e es ih =>
      obtain ⟨hfirst, hrest⟩ := not_or.mp hP
      refine ⟨hQ s hs, fun v hv => ?_⟩
      exact ih (hstep s e List.mem_cons_self v hs hfirst hv) (fun hall => hrest ⟨v, hv, hall⟩)
        fun u e' he' => hstep u e' (List.mem_cons_of_mem _ he')

theorem always_concat {s u : S} {es : List E} (h : run step s es = some u) (e : E) :
    Always step Q s (es ++ [e]) ↔ Always step Q s es ∧ ∀ t, step u e = some t → Q t := by
  induction es generalizing s with
  | nil =>
      rw [run_nil, Option.some.injEq] at h
      simp [Always, h]
  | cons e' es ih =>
      obtain ⟨t, ht, hrun⟩ := Option.bind_eq_some_iff.mp h
      simp [Always, ht, ih hrun, and_assoc]

theorem follows_cons_iff {s t : S} {e : E} {es : List E} (h : step s e = some t) :
    Follows step R s (e :: es) ↔ R s e t ∧ Follows step R t es := by
  rw [Follows, h]
  exact ⟨fun ⟨_, hu, hlaw⟩ => Option.some.inj hu ▸ hlaw, fun hlaw => ⟨t, rfl, hlaw⟩⟩

/-- Two laws that agree on the steps from the states of an invariant, which only the steps that
obey the law need to keep, hold along the same runs. -/
theorem follows_congr {I : S → Prop} {s : S} {es : List E} (hs : I s)
    (hstep : ∀ u, ∀ e ∈ es, ∀ v, I u → step u e = some v → (R u e v ↔ R' u e v))
    (hinv : ∀ u, ∀ e ∈ es, ∀ v, I u → step u e = some v → R' u e v → I v) :
    Follows step R s es ↔ Follows step R' s es := by
  induction es generalizing s with
  | nil => rfl
  | cons e es ih =>
      refine exists_congr fun t => and_congr_right fun ht => ?_
      rw [hstep s e List.mem_cons_self t hs ht]
      exact and_congr_right fun hlaw => ih (hinv s e List.mem_cons_self t hs ht hlaw)
        (fun u e' he' => hstep u e' (List.mem_cons_of_mem _ he'))
        fun u e' he' => hinv u e' (List.mem_cons_of_mem _ he')

/-- A law that only some events break, and those at once, holds along exactly the runs without such
an event. -/
theorem follows_iff_not_happened {I : S → Prop} {s t : S} {es : List E}
    (h : run step s es = some t) (hs : I s)
    (hstep : ∀ u, ∀ e ∈ es, ∀ v, I u → ¬ P u e → step u e = some v → R u e v ∧ I v)
    (hbad : ∀ u, ∀ e ∈ es, ∀ v, I u → P u e → step u e = some v → ¬ R u e v) :
    Follows step R s es ↔ ¬ Happened step P s es := by
  induction es generalizing s with
  | nil => exact iff_of_true trivial id
  | cons e es ih =>
      have hmem : e ∈ e :: es := List.mem_cons_self
      obtain ⟨v, hv, hrun⟩ := Option.bind_eq_some_iff.mp h
      have hnext : ∀ {Q : S → Prop}, (∃ w, step s e = some w ∧ Q w) ↔ Q v := by
        intro Q
        rw [hv]
        exact ⟨fun ⟨w, hw, hQ⟩ => Option.some.inj hw ▸ hQ, fun hQ => ⟨v, rfl, hQ⟩⟩
      rw [Follows, Happened, hnext, hnext, not_or]
      by_cases hP : P s e
      · exact iff_of_false (fun hlaw => hbad s e hmem v hs hP hv hlaw.1) fun hnever => hnever.1 hP
      · obtain ⟨hlaw, hinv⟩ := hstep s e hmem v hs hP hv
        rw [ih hrun hinv (fun u e' he' => hstep u e' (List.mem_cons_of_mem _ he'))
          fun u e' he' => hbad u e' (List.mem_cons_of_mem _ he')]
        exact ⟨fun hnever => ⟨hP, hnever.2⟩, fun hnever => ⟨hlaw, hnever.2⟩⟩

/-- A law that only some events break or get stuck at, and those at once, holds along exactly the
runs without such an event. -/
theorem follows_iff_unless {I : S → Prop} {s : S} {es : List E} (hs : I s)
    (hstep : ∀ u, ∀ e ∈ es, I u → ¬ P u e → ∃ v, step u e = some v ∧ R u e v ∧ I v)
    (hbad : ∀ u, ∀ e ∈ es, ∀ v, I u → P u e → step u e = some v → ¬ R u e v) :
    Follows step R s es ↔ ¬ Happened step P s es := by
  induction es generalizing s with
  | nil => exact iff_of_true trivial id
  | cons e es ih =>
      have hmem : e ∈ e :: es := List.mem_cons_self
      rw [Follows, Happened, not_or]
      by_cases hP : P s e
      · refine iff_of_false ?_ fun hnever => hnever.1 hP
        rintro ⟨v, hv, hlaw, -⟩
        exact hbad s e hmem v hs hP hv hlaw
      · obtain ⟨v, hv, hlaw, hinv⟩ := hstep s e hmem hs hP
        have hrest := ih hinv (fun u e' he' => hstep u e' (List.mem_cons_of_mem _ he'))
          fun u e' he' => hbad u e' (List.mem_cons_of_mem _ he')
        constructor
        · rintro ⟨w, hw, -, hlater⟩
          obtain rfl := Option.some.inj (hv.symm.trans hw)
          refine ⟨hP, ?_⟩
          rintro ⟨u, hu, hbad'⟩
          obtain rfl := Option.some.inj (hv.symm.trans hu)
          exact hrest.mp hlater hbad'
        · rintro ⟨-, hnever⟩
          exact ⟨v, hv, hlaw, hrest.mpr fun hbad' => hnever ⟨v, hv, hbad'⟩⟩

/-- A machine that follows another one: a law about the first holds along exactly the runs in which
the second takes no event that it must not. -/
theorem follows_iff_of_simulation {T : Type*} {step' : T → E → Option T} {P' : T → E → Prop}
    {Sim : S → T → Prop} {s t : S} {u : T} {es : List E} (h : run step s es = some t)
    (hs : Sim s u)
    (hstep : ∀ v e v' w, Sim v w → step v e = some v' →
      (R v e v' ↔ ¬ P' w e) ∧ ∃ w', step' w e = some w' ∧ Sim v' w') :
    Follows step R s es ↔ ¬ Happened step' P' u es := by
  induction es generalizing s u with
  | nil => exact iff_of_true trivial id
  | cons e es ih =>
      obtain ⟨v, hv, hrun⟩ := Option.bind_eq_some_iff.mp h
      obtain ⟨hlaw, w, hw, hsim⟩ := hstep s e v u hs hv
      have hrest := ih hrun hsim
      rw [Follows, Happened, not_or, ← hlaw]
      constructor
      · rintro ⟨v', hv', hfirst, hlater⟩
        obtain rfl := Option.some.inj (hv.symm.trans hv')
        refine ⟨hfirst, ?_⟩
        rintro ⟨w', hw', hbad⟩
        obtain rfl := Option.some.inj (hw.symm.trans hw')
        exact hrest.mp hlater hbad
      · rintro ⟨hfirst, hlater⟩
        exact ⟨v, hv, hfirst, hrest.mpr fun hbad => hlater ⟨w, hw, hbad⟩⟩

/-- A law about the events alone, where the events that obey it never stop the run. -/
theorem follows_event_iff {I : S → Prop} {p : E → Prop} {s : S} {es : List E} (hs : I s)
    (hstep : ∀ u, ∀ e ∈ es, I u → p e → ∃ v, step u e = some v ∧ I v) :
    Follows step (fun _ e _ => p e) s es ↔ ∀ e ∈ es, p e := by
  induction es generalizing s with
  | nil => exact ⟨fun _ _ he => absurd he List.not_mem_nil, fun _ => trivial⟩
  | cons e es ih =>
      rw [List.forall_mem_cons]
      have htail : ∀ t, I t → (Follows step (fun _ e _ => p e) t es ↔ ∀ e' ∈ es, p e') :=
        fun t ht => ih ht fun u e' he' => hstep u e' (List.mem_cons_of_mem _ he')
      constructor
      · rintro ⟨t, ht, he, hrest⟩
        obtain ⟨v, hv, hinv⟩ := hstep s e List.mem_cons_self hs he
        obtain rfl : v = t := Option.some.inj (hv.symm.trans ht)
        exact ⟨he, (htail v hinv).mp hrest⟩
      · rintro ⟨he, hrest⟩
        obtain ⟨v, hv, hinv⟩ := hstep s e List.mem_cons_self hs he
        exact ⟨v, hv, he, (htail v hinv).mpr hrest⟩

/-- An invariant that counts the steps: unless the run takes an event that it must not, every step
obeys the law. -/
theorem follows_unless {I : ℕ → S → Prop} {s : S} {es : List E} {n : ℕ} (hs : I n s)
    (hP : ¬ Happened step P s es)
    (hstep : ∀ k < n + es.length, ∀ u, ∀ e ∈ es, I k u → ¬ P u e →
      ∃ v, step u e = some v ∧ R u e v ∧ I (k + 1) v) : Follows step R s es := by
  induction es generalizing s n with
  | nil => trivial
  | cons e es ih =>
      obtain ⟨hfirst, hrest⟩ := not_or.mp hP
      rw [List.length_cons] at hstep
      obtain ⟨v, hv, hlaw, hinv⟩ := hstep n (by omega) s e List.mem_cons_self hs hfirst
      refine ⟨v, hv, hlaw, ih hinv (fun hall => hrest ⟨v, hv, hall⟩) fun k hk u e' he' => ?_⟩
      exact hstep k (by omega) u e' (List.mem_cons_of_mem _ he')

/-- Where the events that both take keep two machines alike, and those that only the first takes do
so too unless they happen as they must not, the second can do without these. -/
theorem run_drops {A : S → S → Prop} {p : E → Prop} {s t u : S} {es es' : List E}
    (hdrops : Drops p es es') (hs : A s t) (hrun : run step s es = some u)
    (hP : ¬ Happened step P s es)
    (hkeep : ∀ v w e v', A v w → step v e = some v' → ∃ w', step w e = some w' ∧ A v' w')
    (hdrop : ∀ v w e v', A v w → p e → ¬ P v e → step v e = some v' → A v' w) :
    ∃ t', run step t es' = some t' ∧ A u t' := by
  induction hdrops generalizing s t with
  | nil =>
      rw [run_nil, Option.some.injEq] at hrun
      exact ⟨t, rfl, hrun ▸ hs⟩
  | keep e _ ih =>
      obtain ⟨v, hv, hrest⟩ := Option.bind_eq_some_iff.mp hrun
      obtain ⟨w, hw, hsim⟩ := hkeep s t e v hs hv
      obtain ⟨t', ht', hlast⟩ := ih hsim hrest fun hlater => hP (.inr ⟨v, hv, hlater⟩)
      exact ⟨t', by rw [run_cons, hw, Option.bind_some, ht'], hlast⟩
  | drop e he _ ih =>
      obtain ⟨v, hv, hrest⟩ := Option.bind_eq_some_iff.mp hrun
      have hsim := hdrop s t e v hs he (fun hnow => hP (.inl hnow)) hv
      exact ih hsim hrest fun hlater => hP (.inr ⟨v, hv, hlater⟩)

end Run
