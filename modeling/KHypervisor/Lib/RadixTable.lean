import KHypervisor.Lib.Stores

/-!
# Radix tables

A radix table keeps an entry for every key and reaches it through interior nodes, each of which
is live or not. The nodes on the way to a key are its `path`. Mapping a key makes its path live
and stores its entry; looking a key up finds the entry once the whole path is live, whether or
not anybody stored it.

A list of mappings behaves as the map that remembers the last writer of every key, over the
entries that were in the table before: `entry_mapAll_of_forall`, `entry_mapAll_of_notMem`. A node
is live after it if it was before or some mapped key goes through it: `live_mapAll`.
-/

open Stores

variable {N K E : Type*}

@[ext]
structure RadixTable (N K E : Type*) where
  live : N → Bool
  entry : K → E

namespace RadixTable

def blank (entry : K → E) : RadixTable N K E := ⟨fun _ => false, entry⟩

section Map

variable [DecidableEq N] [DecidableEq K] (path : K → List N)

/-- Make the path to `k` live and store `e` there. -/
def map (s : RadixTable N K E) (k : K) (e : E) : RadixTable N K E where
  live n := s.live n || decide (n ∈ path k)
  entry := Function.update s.entry k e

def mapAll (s : RadixTable N K E) (ops : List (K × E)) : RadixTable N K E :=
  ops.foldl (fun s op => s.map path op.1 op.2) s

/-- The entry of `k`, when every node on the way to it is live. -/
def lookup (s : RadixTable N K E) (k : K) : Option E :=
  if ∀ n ∈ path k, s.live n = true then some (s.entry k) else none

@[simp]
theorem mapAll_nil (s : RadixTable N K E) : s.mapAll path [] = s := rfl

@[simp]
theorem mapAll_cons (s : RadixTable N K E) (op : K × E) (ops : List (K × E)) :
    s.mapAll path (op :: ops) = (s.map path op.1 op.2).mapAll path ops := rfl

theorem mapAll_append (s : RadixTable N K E) (ops ops' : List (K × E)) :
    s.mapAll path (ops ++ ops') = (s.mapAll path ops).mapAll path ops' :=
  List.foldl_append

theorem live_mapAll (s : RadixTable N K E) (ops : List (K × E)) (n : N) :
    (s.mapAll path ops).live n = true ↔ s.live n = true ∨ ∃ op ∈ ops, n ∈ path op.1 := by
  induction ops generalizing s with
  | nil => simp
  | cons op ops ih =>
      rw [mapAll_cons, ih]
      simp only [map, Bool.or_eq_true, decide_eq_true_eq, List.exists_mem_cons_iff, or_assoc]

theorem entry_mapAll (s : RadixTable N K E) (ops : List (K × E)) :
    (s.mapAll path ops).entry = storeAll s.entry ops := by
  induction ops generalizing s with
  | nil => rfl
  | cons op ops ih => exact ih _

theorem entry_mapAll_of_notMem (s : RadixTable N K E) {ops : List (K × E)} {k : K}
    (h : ∀ op ∈ ops, op.1 ≠ k) : (s.mapAll path ops).entry k = s.entry k := by
  rw [entry_mapAll, storeAll_of_notMem _ h]

/-- If all the mappings of a key agree, and there are some, they decide its entry. -/
theorem entry_mapAll_of_forall (s : RadixTable N K E) {ops : List (K × E)} {k : K} {e : E}
    (hmem : ∃ op ∈ ops, op.1 = k) (hall : ∀ op ∈ ops, op.1 = k → op.2 = e) :
    (s.mapAll path ops).entry k = e := by
  rw [entry_mapAll, storeAll_of_forall _ hmem hall]

end Map

/-! ## Tables with a last level

When the path to a key is determined by its last node, a table that starts out blank finds a key
exactly if that node has been made live. -/

section LastNode

variable [DecidableEq N] [DecidableEq K] {path : K → List N} {last : K → N}

/-- Keys with the same last node have the same path, which contains it. -/
structure LastNode (path : K → List N) (last : K → N) : Prop where
  mem_path : ∀ k, last k ∈ path k
  path_eq : ∀ k k', last k ∈ path k' → path k' = path k

theorem lookup_mapAll_blank (h : LastNode path last) (entry : K → E) (ops : List (K × E)) (k : K)
    [Decidable (∃ op ∈ ops, last k ∈ path op.1)] :
    ((blank entry).mapAll path ops).lookup path k =
      if ∃ op ∈ ops, last k ∈ path op.1 then some (((blank entry).mapAll path ops).entry k)
      else none := by
  have hlive : (∀ n ∈ path k, ((blank entry).mapAll path ops).live n = true) ↔
      ∃ op ∈ ops, last k ∈ path op.1 := by
    constructor
    · intro hall
      have hlast := (live_mapAll path _ ops _).mp (hall _ (h.mem_path k))
      simpa [blank] using hlast
    · rintro ⟨op, hop, hmem⟩ n hn
      refine (live_mapAll path _ ops n).mpr (Or.inr ⟨op, hop, ?_⟩)
      rw [h.path_eq k op.1 hmem]
      exact hn
  rw [lookup]
  exact if_congr hlive rfl rfl

end LastNode

end RadixTable
