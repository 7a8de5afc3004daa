import Mathlib.Data.List.Basic
import Mathlib.Data.List.Induction
import Mathlib.Order.Lattice
import Mathlib.Order.Nat
import KHypervisor.Lib.Lists

/-!
# Scanning for a candidate

A scan goes through a list and keeps a candidate. An element that is ready replaces the candidate
if its key is below a bound that the candidate brought with it, which need not be the key of the
candidate. The candidate that is left is the first element that no ready element behind it can
replace (`scan_eq_some_iff`); if the bounds are above the keys, it need not be a least one.
-/

namespace Scan

open Lists

variable {α κ : Type*} [LinearOrder κ] (ready : α → Prop) (key bound : α → κ)

/-- A turn of the scan; without a candidate, the bound is `top`. -/
def visit [DecidablePred ready] (top : κ) (candidate : Option α) (a : α) : Option α :=
  if ready a ∧ key a < candidate.elim top bound then some a else candidate

def scan [DecidablePred ready] (top : κ) (l : List α) : Option α :=
  l.foldl (visit ready key bound top) none

/-- The element at a place is ready, and no ready element behind it can replace it. -/
structure StandsAt (l : List α) (n : ℕ) (a : α) : Prop where
  here : l[n]? = some a
  isReady : ready a
  behind : ∀ m b, n < m → l[m]? = some b → ready b → bound a ≤ key b

/-- The element is ready, with the least key of those that are. -/
structure Least (l : List α) (a : α) : Prop where
  mem : a ∈ l
  isReady : ready a
  le : ∀ b ∈ l, ready b → key a ≤ key b

def Prevails (l : List α) (a : α) : Prop :=
  ∃ n, StandsAt ready key bound l n a ∧ ∀ m < n, ∀ b, ¬ StandsAt ready key bound l m b

variable {ready key bound} {l : List α} {a b x : α} {n m : ℕ}

theorem scan_concat [DecidablePred ready] (top : κ) (l : List α) (x : α) :
    scan ready key bound top (l ++ [x]) =
      visit ready key bound top (scan ready key bound top l) x := by
  rw [scan, List.foldl_concat]
  rfl

theorem scan_mem [DecidablePred ready] {top : κ} (h : scan ready key bound top l = some a) :
    a ∈ l ∧ ready a := by
  induction l using List.reverseRecOn with
  | nil => cases h
  | append_singleton l x ih =>
      rw [scan_concat, visit] at h
      split_ifs at h with hfound
      · rw [← Option.some.inj h]
        exact ⟨List.mem_append_right _ (List.mem_singleton_self x), hfound.1⟩
      · exact ⟨List.mem_append_left _ (ih h).1, (ih h).2⟩

theorem mem_of_scan_eq_some [DecidablePred ready] {top : κ}
    (h : scan ready key bound top l = some a) : a ∈ l :=
  (scan_mem h).1

theorem ready_of_scan_eq_some [DecidablePred ready] {top : κ}
    (h : scan ready key bound top l = some a) : ready a :=
  (scan_mem h).2

/-- A scan finds nobody exactly if nobody who is ready has a key below the first bound. -/
theorem scan_eq_none_iff [DecidablePred ready] {top : κ} :
    scan ready key bound top l = none ↔ ∀ a ∈ l, ready a → top ≤ key a := by
  induction l using List.reverseRecOn with
  | nil => exact iff_of_true rfl fun a ha => absurd ha List.not_mem_nil
  | append_singleton l x ih =>
      rw [scan_concat, visit, List.forall_mem_append, List.forall_mem_singleton, ← ih]
      by_cases hnone : scan ready key bound top l = none
      · rw [hnone, Option.elim_none, and_iff_right rfl]
        by_cases hfound : ready x ∧ key x < top
        · rw [if_pos hfound]
          exact iff_of_false (by simp) fun hle => absurd hfound.2 (not_lt_of_ge (hle hfound.1))
        · rw [if_neg hfound]
          exact iff_of_true rfl fun hx => le_of_not_gt fun hlt => hfound ⟨hx, hlt⟩
      · refine iff_of_false ?_ fun hall => hnone hall.1
        split_ifs
        · simp
        · exact hnone

/-- One more element at the end may take the candidacy of those before, and stands itself if it is
ready. -/
theorem standsAt_concat_iff :
    StandsAt ready key bound (l ++ [x]) n a ↔
      StandsAt ready key bound l n a ∧ (ready x → bound a ≤ key x) ∨
        n = l.length ∧ x = a ∧ ready x := by
  constructor
  · rintro ⟨hhere, hready, hbehind⟩
    rcases getElem?_concat_eq_some_iff.mp hhere with hold | ⟨hn, rfl⟩
    · have hn : n < l.length := (List.getElem?_eq_some_iff.mp hold).1
      refine Or.inl ⟨⟨hold, hready, fun m b hm hb => hbehind m b hm ?_⟩, hbehind l.length x hn ?_⟩
      · exact getElem?_concat_eq_some_iff.mpr (Or.inl hb)
      · exact getElem?_concat_eq_some_iff.mpr (Or.inr ⟨rfl, rfl⟩)
    · exact Or.inr ⟨hn, rfl, hready⟩
  · rintro (⟨⟨hhere, hready, hbehind⟩, hlast⟩ | ⟨rfl, rfl, hready⟩)
    · refine ⟨getElem?_concat_eq_some_iff.mpr (Or.inl hhere), hready, fun m b hm hb hbready => ?_⟩
      rcases getElem?_concat_eq_some_iff.mp hb with hb | ⟨-, rfl⟩
      · exact hbehind m b hm hb hbready
      · exact hlast hbready
    · refine ⟨getElem?_concat_eq_some_iff.mpr (Or.inr ⟨rfl, rfl⟩), hready, fun m b hm hb => ?_⟩
      have hlen := (List.getElem?_eq_some_iff.mp hb).1
      rw [List.length_append, List.length_singleton] at hlen
      omega

theorem prevails_concat_of_not_ready (hx : ¬ ready x) :
    Prevails ready key bound (l ++ [x]) a ↔ Prevails ready key bound l a := by
  have hsame : ∀ m b, StandsAt ready key bound (l ++ [x]) m b ↔ StandsAt ready key bound l m b := by
    intro m b
    rw [standsAt_concat_iff, or_iff_left fun h => hx h.2.2, and_iff_left fun h => absurd h hx]
  simp only [Prevails, hsame]

theorem Prevails.mem (h : Prevails ready key bound l a) : a ∈ l := by
  obtain ⟨n, hn, -⟩ := h
  exact List.mem_of_getElem? hn.here

theorem Prevails.isReady (h : Prevails ready key bound l a) : ready a := by
  obtain ⟨n, hn, -⟩ := h
  exact hn.isReady

theorem Prevails.unique (h : Prevails ready key bound l a) (h' : Prevails ready key bound l b) :
    a = b := by
  obtain ⟨n, hn, hfirst⟩ := h
  obtain ⟨m, hm, hfirst'⟩ := h'
  have hnm : n = m := by
    by_contra hne
    rcases Nat.lt_or_gt_of_ne hne with hlt | hlt
    · exact hfirst' n hlt a hn
    · exact hfirst m hlt b hm
  have hhere := hn.here
  rw [hnm, hm.here, Option.some.injEq] at hhere
  exact hhere.symm

/-- Where the bounds are not below the keys, an element that prevails has a key not above those of
all others that stand. -/
theorem Prevails.key_le (h : Prevails ready key bound l a) (hbound : key a ≤ bound a)
    (hm : StandsAt ready key bound l m b) : key a ≤ key b := by
  obtain ⟨n, hn, hfirst⟩ := h
  rcases lt_trichotomy n m with hlt | rfl | hlt
  · exact le_trans hbound (hn.behind m b hlt hm.here hm.isReady)
  · rw [Option.some.inj (hn.here.symm.trans hm.here)]
  · exact absurd hm (hfirst m hlt b)

/-- The one that prevails has the least key exactly if one with the least key stands. -/
theorem Prevails.least_iff (hbound : ∀ a ∈ l, ready a → key a ≤ bound a)
    (h : Prevails ready key bound l a) :
    Least ready key l a ↔ ∃ n b, StandsAt ready key bound l n b ∧ Least ready key l b := by
  constructor
  · intro hleast
    obtain ⟨n, hn, -⟩ := h
    exact ⟨n, a, hn, hleast⟩
  · rintro ⟨n, b, hb, hleast⟩
    refine ⟨h.mem, h.isReady, fun c hc hready => ?_⟩
    exact (h.key_le (hbound a h.mem h.isReady) hb).trans (hleast.le c hc hready)

/-- A new element that replaces the one that prevails prevails itself. -/
theorem Prevails.replace (hbound : ∀ b ∈ l, ready b → key b ≤ bound b)
    (h : Prevails ready key bound l a) (hx : ready x) (hlt : key x < bound a) :
    Prevails ready key bound (l ++ [x]) x := by
  obtain ⟨n, hn, hfirst⟩ := h
  refine ⟨l.length, standsAt_concat_iff.mpr (Or.inr ⟨rfl, rfl, hx⟩), fun m hm b hb => ?_⟩
  rcases standsAt_concat_iff.mp hb with ⟨hold, hkeep⟩ | ⟨hlast, -, -⟩
  · refine absurd hlt (not_lt_of_ge ?_)
    rcases lt_trichotomy m n with hmn | rfl | hmn
    · exact absurd hold (hfirst m hmn b)
    · rw [Option.some.inj (hn.here.symm.trans hold.here)]
      exact hkeep hx
    · -- whoever stands behind `a` has a bound above that of `a`
      calc bound a ≤ key b := hn.behind m b hmn hold.here hold.isReady
        _ ≤ bound b := hbound b (List.mem_of_getElem? hold.here) hold.isReady
        _ ≤ key x := hkeep hx
  · exact absurd hlast (Nat.ne_of_lt hm)

theorem Prevails.keep (h : Prevails ready key bound l a) (hle : bound a ≤ key x) :
    Prevails ready key bound (l ++ [x]) a := by
  obtain ⟨n, hn, hfirst⟩ := h
  have hlen : n < l.length := (List.getElem?_eq_some_iff.mp hn.here).1
  refine ⟨n, standsAt_concat_iff.mpr (Or.inl ⟨hn, fun _ => hle⟩), fun m hm b hb => ?_⟩
  rcases standsAt_concat_iff.mp hb with ⟨hold, -⟩ | ⟨hlast, -, -⟩
  · exact hfirst m hm b hold
  · omega

/-- The scan finds somebody exactly if somebody is ready, and whom it finds prevails. -/
theorem scan_spec [DecidablePred ready] {top : κ} (hbound : ∀ a ∈ l, ready a → key a ≤ bound a)
    (htop : ∀ a ∈ l, ready a → key a < top) :
    (scan ready key bound top l = none → ∀ a ∈ l, ¬ ready a) ∧
      ∀ a, scan ready key bound top l = some a → Prevails ready key bound l a := by
  induction l using List.reverseRecOn with
  | nil => exact ⟨fun _ a ha => absurd ha List.not_mem_nil, fun a h => by cases h⟩
  | append_singleton l x ih =>
      have hold : ∀ a ∈ l, a ∈ l ++ [x] := fun a ha => List.mem_append_left _ ha
      have hnew : x ∈ l ++ [x] := List.mem_append_right _ (List.mem_singleton_self x)
      obtain ⟨hnone, hsome⟩ := ih (fun a ha => hbound a (hold a ha)) fun a ha => htop a (hold a ha)
      rw [scan_concat, visit]
      by_cases hx : ready x
      · cases hscan : scan ready key bound top l with
        | none =>
            rw [if_pos ⟨hx, htop x hnew hx⟩]
            refine ⟨by simp, fun a ha => ?_⟩
            rw [← Option.some.inj ha]
            refine ⟨l.length, standsAt_concat_iff.mpr (Or.inr ⟨rfl, rfl, hx⟩), fun m hm b hb => ?_⟩
            rcases standsAt_concat_iff.mp hb with ⟨hb, -⟩ | ⟨hlast, -, -⟩
            · exact hnone hscan b (List.mem_of_getElem? hb.here) hb.isReady
            · exact absurd hlast (Nat.ne_of_lt hm)
        | some c =>
            have hc := hsome c hscan
            by_cases hlt : key x < bound c
            · rw [if_pos ⟨hx, hlt⟩]
              refine ⟨by simp, fun a ha => ?_⟩
              rw [← Option.some.inj ha]
              exact hc.replace (fun b hb => hbound b (hold b hb)) hx hlt
            · rw [if_neg fun hall => hlt hall.2]
              refine ⟨by simp, fun a ha => ?_⟩
              rw [← Option.some.inj ha]
              exact hc.keep (le_of_not_gt hlt)
      · rw [if_neg fun hall => hx hall.1]
        refine ⟨fun h a ha => ?_, fun a ha => (prevails_concat_of_not_ready hx).mpr (hsome a ha)⟩
        rcases List.mem_append.mp ha with ha | ha
        · exact hnone h a ha
        · rwa [List.mem_singleton.mp ha]

theorem scan_eq_some_iff [DecidablePred ready] {top : κ}
    (hbound : ∀ a ∈ l, ready a → key a ≤ bound a)
    (htop : ∀ a ∈ l, ready a → key a < top) :
    scan ready key bound top l = some a ↔ Prevails ready key bound l a := by
  obtain ⟨hnone, hsome⟩ := scan_spec hbound htop
  refine ⟨hsome a, fun h => ?_⟩
  cases hscan : scan ready key bound top l with
  | none => exact absurd h.isReady (hnone hscan a h.mem)
  | some b => rw [(hsome b hscan).unique h]

end Scan
