import Mathlib.Data.List.Basic

/-!
# Blocks of fresh memory

A block that was just allocated holds what was there before. It is kept with the fields that have
been assigned since and with those that were read while they had not been.
-/

/-- A block with the fields assigned since it was allocated, and the fields read before they were
assigned. -/
structure FreshBlock (F B : Type*) where
  block : B
  assigned : List F
  stale : List F

namespace FreshBlock

variable {F B V : Type*}

def alloc (block : B) : FreshBlock F B := ⟨block, [], []⟩

/-- An assignment to the field `f`. -/
def assign (f : F) (set : B → B) (t : FreshBlock F B) : FreshBlock F B :=
  { t with block := set t.block, assigned := f :: t.assigned }

/-- The value of the field `f`. -/
def read [DecidableEq F] (f : F) (get : B → V) (t : FreshBlock F B) : V × FreshBlock F B :=
  (get t.block, if f ∈ t.assigned then t else { t with stale := f :: t.stale })

variable {f g : F} {get : B → V} {set : B → B} {t : FreshBlock F B}

@[simp]
theorem alloc_block (block : B) : (alloc block : FreshBlock F B).block = block := rfl

@[simp]
theorem alloc_stale (block : B) : (alloc block : FreshBlock F B).stale = [] := rfl

@[simp]
theorem notMem_assigned_alloc (block : B) : f ∉ (alloc block : FreshBlock F B).assigned :=
  List.not_mem_nil

@[simp]
theorem assign_block : (t.assign f set).block = set t.block := rfl

@[simp]
theorem assign_stale : (t.assign f set).stale = t.stale := rfl

@[simp]
theorem mem_assigned_assign : g ∈ (t.assign f set).assigned ↔ g = f ∨ g ∈ t.assigned :=
  List.mem_cons

variable [DecidableEq F]

@[simp]
theorem read_value : (t.read f get).1 = get t.block := rfl

@[simp]
theorem read_block : (t.read f get).2.block = t.block := by
  rw [read]
  split <;> rfl

@[simp]
theorem read_assigned : (t.read f get).2.assigned = t.assigned := by
  rw [read]
  split <;> rfl

/-- A read adds its field to the stale ones unless it has been assigned. -/
@[simp]
theorem read_stale :
    (t.read f get).2.stale = if f ∈ t.assigned then t.stale else f :: t.stale := by
  rw [read]
  split <;> rfl

end FreshBlock
