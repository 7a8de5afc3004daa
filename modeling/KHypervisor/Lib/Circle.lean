import Mathlib.Data.List.Nodup
import Mathlib.Logic.Function.Basic

/-!
# Circles of nodes

Every node has one next node. `Leads next xs p q` says that from `p` on the nodes `xs` are met, in
this order, and then `q`; a circle leads from the node after `p` back to `p`. Nodes are put into a
circle and taken out of it by the assignment of one or two pointers, and a loop that goes on at
all nodes of a part of it comes to the end of this part: `Leads.skip`.
-/

section Leads

variable {α β : Type*} {next next' : α → α} {xs ys : List α} {p q x y : α}

/-- The last node of a part that begins after `p`. -/
def lastNode : α → List α → α
  | p, [] => p
  | _, x :: xs => lastNode x xs

@[simp]
theorem lastNode_nil (p : α) : lastNode p [] = p := rfl

@[simp]
theorem lastNode_cons (p x : α) (xs : List α) : lastNode p (x :: xs) = lastNode x xs := rfl

@[simp]
theorem lastNode_append (p : α) (xs ys : List α) :
    lastNode p (xs ++ ys) = lastNode (lastNode p xs) ys := by
  induction xs generalizing p with
  | nil => rfl
  | cons x xs ih => exact ih x

theorem lastNode_map (f : α → β) (p : α) (xs : List α) :
    lastNode (f p) (xs.map f) = f (lastNode p xs) := by
  induction xs generalizing p with
  | nil => rfl
  | cons x xs ih => exact ih x

theorem lastNode_mem (p : α) (xs : List α) : lastNode p xs ∈ p :: xs := by
  induction xs generalizing p with
  | nil => exact List.mem_cons_self
  | cons x xs ih => exact List.mem_cons_of_mem _ (ih x)

theorem pairwise_lastNode {r : α → α → Prop} (h : (p :: (xs ++ ys)).Pairwise r) :
    (lastNode p xs :: ys).Pairwise r := by
  induction xs generalizing p with
  | nil => exact h
  | cons x xs ih => exact ih (List.pairwise_cons.mp h).2

/-- A node of a circle is the last one of a part that begins after `p`. -/
theorem exists_split_of_mem (h : x ∈ p :: xs) :
    ∃ ys zs, xs = ys ++ zs ∧ lastNode p ys = x := by
  rcases List.mem_cons.mp h with rfl | hx
  · exact ⟨[], xs, rfl, rfl⟩
  · obtain ⟨ys, zs, rfl⟩ := List.append_of_mem hx
    exact ⟨ys ++ [x], zs, by simp, by simp⟩

theorem lastNode_notMem (h : (p :: (xs ++ ys)).Nodup) : lastNode p xs ∉ ys := by
  rw [← List.cons_append] at h
  exact fun hmem => List.disjoint_of_nodup_append h (lastNode_mem p xs) hmem

theorem exists_first {P : α → Prop} (h : ∃ x ∈ xs, P x) :
    ∃ ys x zs, xs = ys ++ x :: zs ∧ P x ∧ ∀ y ∈ ys, ¬ P y := by
  induction xs with
  | nil => simp at h
  | cons x xs ih =>
      by_cases hx : P x
      · exact ⟨[], x, xs, rfl, hx, by simp⟩
      · have hrest : ∃ y ∈ xs, P y := by simpa [hx] using h
        obtain ⟨ys, y, zs, rfl, hy, hys⟩ := ih hrest
        exact ⟨x :: ys, y, zs, rfl, hy, by simpa [hx] using hys⟩

/-- From `p` on the nodes `xs` are met, and then `q`. -/
def Leads (next : α → α) : List α → α → α → Prop
  | [], p, q => p = q
  | x :: xs, p, q => p = x ∧ Leads next xs (next x) q

/-- The other nodes of the circle through `p`, from the one after it on. -/
def LeadsBack (next : α → α) (p : α) (xs : List α) : Prop := Leads next xs (next p) p

theorem leads_append :
    Leads next (xs ++ ys) p q ↔ ∃ r, Leads next xs p r ∧ Leads next ys r q := by
  induction xs generalizing p with
  | nil => simp [Leads]
  | cons x xs ih => simp [Leads, ih, and_assoc]

theorem Leads.next_lastNode (h : Leads next xs (next p) q) : next (lastNode p xs) = q := by
  induction xs generalizing p with
  | nil => exact h
  | cons x xs ih => exact ih h.2

theorem Leads.congr (h : Leads next xs p q) (hsame : ∀ x ∈ xs, next' x = next x) :
    Leads next' xs p q := by
  induction xs generalizing p with
  | nil => exact h
  | cons x xs ih =>
      have hrest := ih h.2 fun y hy => hsame y (List.mem_cons_of_mem _ hy)
      rw [← hsame x List.mem_cons_self] at hrest
      exact ⟨h.1, hrest⟩

/-- A loop that keeps the node before comes to the end of a part, if it goes on at all nodes. -/
theorem Leads.skip {f : ℕ → α → α → β} (h : Leads next xs p q)
    (hgo : ∀ x ∈ xs, ∀ fuel y, f (fuel + 1) y x = f fuel x (next x)) (fuel : ℕ) :
    f (fuel + xs.length) y p = f fuel (lastNode y xs) q := by
  induction xs generalizing p y with
  | nil => rw [h, List.length_nil, Nat.add_zero, lastNode_nil]
  | cons x xs ih =>
      rw [h.1, List.length_cons, ← Nat.add_assoc, hgo x List.mem_cons_self, lastNode_cons]
      exact ih h.2 fun z hz => hgo z (List.mem_cons_of_mem _ hz)

theorem leadsBack_append_cons :
    LeadsBack next p (xs ++ x :: ys) ↔
      Leads next xs (next p) x ∧ Leads next ys (next x) p := by
  rw [LeadsBack, leads_append]
  constructor
  · rintro ⟨r, hxs, rfl, hys⟩
    exact ⟨hxs, hys⟩
  · exact fun h => ⟨x, h.1, rfl, h.2⟩

/-- Two parts of a circle meet in the node after the last one of the first part. -/
theorem LeadsBack.split (h : LeadsBack next p (xs ++ ys)) :
    Leads next xs (next p) (next (lastNode p xs)) ∧
      Leads next ys (next (lastNode p xs)) p := by
  obtain ⟨r, hxs, hys⟩ := leads_append.mp h
  rw [hxs.next_lastNode]
  exact ⟨hxs, hys⟩

theorem LeadsBack.congr (h : LeadsBack next p xs) (hsame : ∀ x ∈ p :: xs, next' x = next x) :
    LeadsBack next' p xs := by
  have hxs := Leads.congr h fun x hx => hsame x (List.mem_cons_of_mem _ hx)
  rwa [← hsame p List.mem_cons_self] at hxs

variable [DecidableEq α]

/-- The pointer of the last node of a part decides where it ends, and nothing else. -/
theorem Leads.relink (h : Leads next xs (next p) q) (hnodup : (p :: xs).Nodup) (v : α) :
    Leads (Function.update next (lastNode p xs) v) xs
      (Function.update next (lastNode p xs) v p) v := by
  induction xs generalizing p with
  | nil => exact Function.update_self ..
  | cons x xs ih =>
      have hne : p ≠ lastNode x xs :=
        fun heq => (List.nodup_cons.mp hnodup).1 (heq ▸ lastNode_mem x xs)
      rw [lastNode_cons, Function.update_of_ne hne]
      exact ⟨h.1, ih h.2 (List.nodup_cons.mp hnodup).2⟩

/-- A part is the same after a pointer of a node that is not in it was assigned. -/
theorem Leads.update_of_notMem (h : Leads next xs p q) (hx : x ∉ xs) (v : α) :
    Leads (Function.update next x v) xs p q :=
  h.congr fun _ hy => Function.update_of_ne (ne_of_mem_of_not_mem hy hx) _ _

/-- A part that begins after `p` and one that leads back to `p` are joined to a circle. -/
theorem Leads.splice {r v : α} (hxs : Leads next xs (next p) r) (hys : Leads next ys v p)
    (hnodup : (p :: (xs ++ ys)).Nodup) :
    LeadsBack (Function.update next (lastNode p xs) v) p (xs ++ ys) := by
  have hlast := lastNode_notMem hnodup
  rw [← List.cons_append] at hnodup
  exact leads_append.mpr ⟨v, hxs.relink (List.nodup_append.mp hnodup).1 v,
    hys.update_of_notMem hlast v⟩

end Leads
