import Mathlib.Data.List.Nodup
import Mathlib.Data.Set.Insert
import Mathlib.Logic.Relation
import Mathlib.Logic.Function.Basic

/-!
# Intrusive circular lists

Doubly linked lists whose links are kept in the items themselves. A list is known by its head,
which is a node of the circle like the items. The operations only follow pointers and know of no
list: an item that is in a list already is added without being removed, and the links of the list
no longer form a circle then.

`IsList` says that they do. It is kept by the operations where they are used as they are meant to
be (`addtail_isList`, `delinit_isList`), and a traversal of such a list visits its items
(`entries_isList`). However they are used, the links among some heads and items never lead out of
them: `Closed`.
-/

inductive Node (H I : Type)
  | head (h : H)
  | item (i : I)
deriving DecidableEq

/-- The pointers of the nodes. A pointer that was never set, or is lost, is missing. -/
@[ext]
structure Links (H I : Type) where
  prev : Node H I → Option (Node H I)
  next : Node H I → Option (Node H I)

namespace Links

variable {H I : Type}

section

variable [DecidableEq H] [DecidableEq I]

def setPrev (x y : Node H I) (L : Links H I) : Links H I :=
  { L with prev := Function.update L.prev x (some y) }

def setNext (x y : Node H I) (L : Links H I) : Links H I :=
  { L with next := Function.update L.next x (some y) }

def inithead (x : Node H I) (L : Links H I) : Links H I := (L.setPrev x x).setNext x x

def addtail (i : I) (h : H) (L : Links H I) : Option (Links H I) :=
  let L := L.setNext (.item i) (.head h)
  (L.prev (.head h)).map fun p =>
    ((L.setPrev (.item i) p).setNext p (.item i)).setPrev (.head h) (.item i)

def forget (x : Node H I) (L : Links H I) : Links H I :=
  ⟨Function.update L.prev x none, Function.update L.next x none⟩

/-- The links after the neighbours of an item have been linked to each other, and the item to
itself. -/
def delinit (i : I) (L : Links H I) : Option (Links H I) := do
  let p ← L.prev (.item i)
  let n ← L.next (.item i)
  some (inithead (.item i) ((L.setNext p n).setPrev n p))

end

def isLinked (x : Node H I) (L : Links H I) : Bool := (L.prev x).isSome || (L.next x).isSome

def empty : Links H I where
  prev
    | .head h => some (.head h)
    | .item _ => none
  next
    | .head h => some (.head h)
    | .item _ => none

/-- The items that are met from a node on until the head is, if it is within some number of them.
To meet another head is no result. -/
def walk [DecidableEq H] (L : Links H I) (h : H) : ℕ → Node H I → Option (List I)
  | _, .head h' => if h' = h then some [] else none
  | 0, .item _ => none
  | fuel + 1, .item i => do
      let next ← L.next (.item i)
      (walk L h fuel next).map (i :: ·)

def entries [DecidableEq H] (fuel : ℕ) (h : H) (L : Links H I) : Option (List I) :=
  (L.next (.head h)).bind (L.walk h fuel)

/-! ## Circles -/

def Linked (L : Links H I) (x y : Node H I) : Prop := L.next x = some y ∧ L.prev y = some x

/-- The links lead from `x` over the items of a list to `y`. -/
def Path (L : Links H I) : Node H I → List I → Node H I → Prop
  | x, [], y => L.Linked x y
  | x, i :: l, y => L.Linked x (.item i) ∧ Path L (.item i) l y

/-- The list with head `h` has these items. -/
structure IsList (L : Links H I) (h : H) (l : List I) : Prop where
  path : L.Path (.head h) l (.head h)
  nodup : l.Nodup

def Alone (L : Links H I) (i : I) : Prop := L.Linked (.item i) (.item i)

variable {L L' : Links H I} {h : H} {i j : I} {l m : List I} {x y z : Node H I}

def SameAt (L L' : Links H I) (x : Node H I) : Prop :=
  L'.next x = L.next x ∧ L'.prev x = L.prev x

theorem SameAt.refl (L : Links H I) (x : Node H I) : SameAt L L x := ⟨rfl, rfl⟩

theorem path_append :
    L.Path x (l ++ i :: m) y ↔ L.Path x l (.item i) ∧ L.Path (.item i) m y := by
  induction l generalizing x with
  | nil => rfl
  | cons j l ih => simp [Path, ih, and_assoc]

theorem Path.congr (hpath : L.Path x l y) (hx : L'.next x = L.next x)
    (hl : ∀ j ∈ l, SameAt L L' (.item j)) (hy : L'.prev y = L.prev y) :
    L'.Path x l y := by
  induction l generalizing x with
  | nil => exact ⟨hx.trans hpath.1, hy.trans hpath.2⟩
  | cons j l ih =>
      obtain ⟨hnext, hprev⟩ := hl j List.mem_cons_self
      exact ⟨⟨hx.trans hpath.1.1, hprev.trans hpath.1.2⟩,
        ih hpath.2 hnext fun k hk => hl k (List.mem_cons_of_mem _ hk)⟩

theorem IsList.congr (hlist : L.IsList h l) (hhead : SameAt L L' (.head h))
    (hl : ∀ j ∈ l, SameAt L L' (.item j)) : L'.IsList h l :=
  ⟨hlist.path.congr hhead.1 hl hhead.2, hlist.nodup⟩

theorem isList_nil (hself : L.Linked (.head h) (.head h)) : L.IsList h [] :=
  ⟨hself, List.nodup_nil⟩

theorem isList_empty (h : H) : (empty : Links H I).IsList h [] := isList_nil ⟨rfl, rfl⟩

theorem Path.last (hpath : L.Path x l y) :
    ∃ p, L.Linked p y ∧ ((l = [] ∧ p = x) ∨ ∃ m j, l = m ++ [j] ∧ p = .item j) := by
  rcases l.eq_nil_or_concat' with rfl | ⟨m, j, rfl⟩
  · exact ⟨x, hpath, .inl ⟨rfl, rfl⟩⟩
  · exact ⟨.item j, (path_append.mp hpath).2, .inr ⟨m, j, rfl, rfl⟩⟩

theorem Path.first (hpath : L.Path x l y) :
    ∃ n, L.Linked x n ∧ ((l = [] ∧ n = y) ∨ ∃ j m, l = j :: m ∧ n = .item j) := by
  cases l with
  | nil => exact ⟨y, hpath, .inl ⟨rfl, rfl⟩⟩
  | cons j m => exact ⟨.item j, hpath.1, .inr ⟨j, m, rfl, rfl⟩⟩

theorem ne_last {p z : Node H I} (hcases : (l = [] ∧ p = x) ∨ ∃ m j, l = m ++ [j] ∧ p = .item j)
    (hz : z ≠ x) (hitems : z ∉ l.map Node.item) : z ≠ p := by
  rintro rfl
  rcases hcases with ⟨-, hp⟩ | ⟨m, j, rfl, rfl⟩
  · exact hz hp
  · simp at hitems

theorem ne_first {n z : Node H I} (hcases : (l = [] ∧ n = y) ∨ ∃ j m, l = j :: m ∧ n = .item j)
    (hz : z ≠ y) (hitems : z ∉ l.map Node.item) : z ≠ n := by
  rintro rfl
  rcases hcases with ⟨-, hn⟩ | ⟨j, m, rfl, rfl⟩
  · exact hz hn
  · simp at hitems

/-- A path to the head may begin at another node, if that is linked to the first node after the
start. -/
theorem Path.relink_start {q : Node H I} (hpath : L.Path x l (.head h)) (hnodup : l.Nodup)
    (hq : L.Linked x q) (hq' : L'.Linked y q)
    (hnext : ∀ j ∈ l, L'.next (.item j) = L.next (.item j))
    (hprev : ∀ j ∈ l, .item j ≠ q → L'.prev (.item j) = L.prev (.item j))
    (hhead : .head h ≠ q → L'.prev (.head h) = L.prev (.head h)) : L'.Path y l (.head h) := by
  cases l with
  | nil =>
      obtain rfl : q = .head h := Option.some.inj (hq.1.symm.trans hpath.1)
      exact hq'
  | cons k l =>
      obtain rfl : q = .item k := Option.some.inj (hq.1.symm.trans hpath.1.1)
      obtain ⟨hk, -⟩ := List.nodup_cons.mp hnodup
      refine ⟨hq', hpath.2.congr (hnext k List.mem_cons_self) (fun j hj => ?_) (hhead nofun)⟩
      have hjk : Node.item (H := H) j ≠ .item k := by
        rintro ⟨⟩
        exact hk hj
      exact ⟨hnext j (List.mem_cons_of_mem _ hj), hprev j (List.mem_cons_of_mem _ hj) hjk⟩

theorem walk_path [DecidableEq H] (hpath : L.Path x l (.head h)) {fuel : ℕ}
    (hfuel : l.length ≤ fuel) : (L.next x).bind (L.walk h fuel) = some l := by
  induction l generalizing x fuel with
  | nil => rw [hpath.1, Option.bind_some, walk, if_pos rfl]
  | cons i l ih =>
      obtain ⟨fuel, rfl⟩ := Nat.exists_eq_succ_of_ne_zero
        (Nat.ne_of_gt (Nat.lt_of_lt_of_le (Nat.succ_pos _) hfuel))
      have hrest := ih hpath.2 (Nat.le_of_succ_le_succ hfuel)
      obtain ⟨n, hn, hwalk⟩ := Option.bind_eq_some_iff.mp hrest
      rw [hpath.1.1, Option.bind_some, walk]
      simp [hn, hwalk]

theorem entries_isList [DecidableEq H] (hlist : L.IsList h l) {fuel : ℕ}
    (hfuel : l.length ≤ fuel) : L.entries fuel h = some l :=
  walk_path hlist.path hfuel

theorem walk_mono [DecidableEq H] {fuel fuel' : ℕ} (hle : fuel ≤ fuel')
    (hwalk : L.walk h fuel x = some l) : L.walk h fuel' x = some l := by
  induction fuel generalizing fuel' x l with
  | zero =>
      cases x with
      | head h' => cases fuel' <;> exact hwalk
      | item i => exact absurd hwalk (by simp [walk])
  | succ fuel ih =>
      obtain ⟨fuel', rfl⟩ := Nat.exists_eq_add_of_le' (Nat.one_le_of_lt hle)
      cases x with
      | head h' => exact hwalk
      | item i =>
          rw [walk] at hwalk ⊢
          obtain ⟨y, hy, hrest⟩ := Option.bind_eq_some_iff.mp hwalk
          obtain ⟨l, hl, rfl⟩ := Option.map_eq_some_iff.mp hrest
          simp [hy, ih (Nat.le_of_succ_le_succ hle) hl]

theorem length_le_of_walk [DecidableEq H] {fuel : ℕ} (hwalk : L.walk h fuel x = some l) :
    l.length ≤ fuel := by
  induction fuel generalizing x l with
  | zero =>
      cases x with
      | head h' => simp_all [walk]
      | item i => exact absurd hwalk (by simp [walk])
  | succ fuel ih =>
      cases x with
      | head h' => simp_all [walk]
      | item i =>
          rw [walk] at hwalk
          obtain ⟨y, -, hrest⟩ := Option.bind_eq_some_iff.mp hwalk
          obtain ⟨l, hl, rfl⟩ := Option.map_eq_some_iff.mp hrest
          exact Nat.succ_le_succ (ih hl)

theorem entries_mono [DecidableEq H] {fuel fuel' : ℕ} (hle : fuel ≤ fuel')
    (hl : L.entries fuel h = some l) : L.entries fuel' h = some l := by
  obtain ⟨x, hx, hwalk⟩ := Option.bind_eq_some_iff.mp hl
  rw [entries, hx, Option.bind_some, walk_mono hle hwalk]

/-- A head has one list, which is as long as a traversal that comes back. -/
theorem IsList.eq_of_entries [DecidableEq H] (hlist : L.IsList h l) {fuel : ℕ}
    (hm : L.entries fuel h = some m) : m = l ∧ l.length ≤ fuel := by
  obtain ⟨x, -, hwalk⟩ := Option.bind_eq_some_iff.mp hm
  have hlong := entries_mono (Nat.le_max_left fuel l.length) hm
  rw [entries_isList hlist (Nat.le_max_right fuel l.length), Option.some.injEq] at hlong
  exact ⟨hlong.symm, hlong ▸ length_le_of_walk hwalk⟩

theorem IsList.unique [DecidableEq H] (hl : L.IsList h l) (hm : L.IsList h m) : m = l :=
  (hl.eq_of_entries (entries_isList hm (Nat.le_refl _))).1

/-! ## The operations on circles -/

section

variable [DecidableEq H] [DecidableEq I]

def link (x y : Node H I) (L : Links H I) : Links H I := (L.setNext x y).setPrev y x

theorem linked_link (x y : Node H I) (L : Links H I) : (L.link x y).Linked x y :=
  ⟨Function.update_self .., Function.update_self ..⟩

theorem link_next_of_ne (hz : z ≠ x) : (L.link x y).next z = L.next z :=
  Function.update_of_ne hz ..

theorem link_prev_of_ne (hz : z ≠ y) : (L.link x y).prev z = L.prev z :=
  Function.update_of_ne hz ..

theorem linked_inithead (x : Node H I) (L : Links H I) : (L.inithead x).Linked x x :=
  ⟨Function.update_self .., Function.update_self ..⟩

theorem inithead_sameAt (hz : z ≠ x) : SameAt L (L.inithead x) z :=
  ⟨Function.update_of_ne hz .., Function.update_of_ne hz ..⟩

theorem addtail_eq (hprev : L.prev (.head h) = some x) :
    L.addtail i h = some ((L.link (.item i) (.head h)).link x (.item i)) := by
  have hne : Node.item i ≠ (.head h : Node H I) := by simp
  rw [addtail, setNext, hprev, Option.map_some, Option.some.injEq]
  refine Links.ext ?_ rfl
  exact Function.update_comm hne (some x) (some (.item i)) L.prev

theorem addtail_isList (hlist : L.IsList h l) (hi : i ∉ l) :
    ∃ L', L.addtail i h = some L' ∧ L'.IsList h (l ++ [i]) ∧
      ∀ z, z ≠ .head h → z ∉ (l ++ [i]).map Node.item → SameAt L L' z := by
  obtain ⟨p, hp, hcases⟩ := hlist.path.last
  have hne : p ≠ .item i := Ne.symm (ne_last hcases nofun (by simpa using hi))
  refine ⟨_, addtail_eq hp.2, ⟨?_, ?_⟩, fun z hz hitems => ?_⟩
  · have hfirst := linked_link p (.item i) (L.link (.item i) (.head h))
    have hlast : ((L.link (.item i) (.head h)).link p (.item i)).Linked (.item i) (.head h) := by
      refine ⟨(link_next_of_ne hne.symm).trans (linked_link ..).1, ?_⟩
      exact (link_prev_of_ne (by simp)).trans (linked_link ..).2
    rcases hcases with ⟨rfl, rfl⟩ | ⟨m, j, rfl, rfl⟩
    · exact ⟨hfirst, hlast⟩
    · have hnodup := List.nodup_append.mp hlist.nodup
      have hij : j ≠ i := by simpa using hne
      have him : ∀ k ∈ m, k ≠ i ∧ k ≠ j := fun k hk =>
        ⟨fun hki => hi (by simp [← hki, hk]), hnodup.2.2 k hk j (by simp)⟩
      rw [List.append_assoc]
      refine path_append.mpr ⟨(path_append.mp hlist.path).1.congr ?_ (fun k hk => ?_) ?_,
        hfirst, hlast⟩
      · rw [link_next_of_ne (by simp), link_next_of_ne (by simp)]
      · obtain ⟨hki, hkj⟩ := him k hk
        refine ⟨?_, ?_⟩
        · rw [link_next_of_ne (by simpa using hkj), link_next_of_ne (by simpa using hki)]
        · rw [link_prev_of_ne (by simpa using hki), link_prev_of_ne (by simp)]
      · rw [link_prev_of_ne (by simpa using hij), link_prev_of_ne (by simp)]
  · rw [← List.concat_eq_append]
    exact List.Nodup.concat hi hlist.nodup
  · have hzi : z ≠ .item i := by
      rintro rfl
      simp at hitems
    have hzp : z ≠ p := by
      apply ne_last hcases hz
      intro hmem
      exact hitems (List.map_append ▸ List.mem_append_left _ hmem)
    refine ⟨?_, ?_⟩
    · rw [link_next_of_ne hzp, link_next_of_ne hzi]
    · rw [link_prev_of_ne hzi, link_prev_of_ne hz]

theorem delinit_eq (hp : L.Linked x (.item i)) (hn : L.Linked (.item i) y) :
    L.delinit i = some (inithead (.item i) (L.link x y)) := by
  rw [delinit, hp.2, hn.1]
  rfl

theorem delinit_alone (hi : L.Alone i) : L.delinit i = some L := by
  rw [delinit_eq hi hi, Option.some.injEq]
  refine Links.ext ?_ ?_
  · simp [inithead, link, setNext, setPrev, ← hi.2]
  · simp [inithead, link, setNext, setPrev, ← hi.1]

theorem delinit_isList (hlist : L.IsList h l) (hi : i ∈ l) :
    ∃ L', L.delinit i = some L' ∧ L'.IsList h (l.erase i) ∧ L'.Alone i ∧
      ∀ z, z ≠ .head h → z ∉ l.map Node.item → SameAt L L' z := by
  obtain ⟨m, n, rfl⟩ := List.append_of_mem hi
  obtain ⟨hm, hn⟩ := path_append.mp hlist.path
  obtain ⟨p, hp, hpcases⟩ := hm.last
  obtain ⟨q, hq, hqcases⟩ := hn.first
  obtain ⟨hmnodup, hinodup, hdisj⟩ := List.nodup_append.mp hlist.nodup
  obtain ⟨hin, hnnodup⟩ := List.nodup_cons.mp hinodup
  have him : i ∉ m := fun hmem => hdisj i hmem i List.mem_cons_self rfl
  have hpi : p ≠ .item i := Ne.symm (ne_last hpcases nofun (by simpa using him))
  have hqi : q ≠ .item i := Ne.symm (ne_first hqcases nofun (by simpa using hin))
  have hmi : ∀ j ∈ m, Node.item (H := H) j ≠ .item i := by
    rintro j hj ⟨⟩
    exact him hj
  have hni : ∀ j ∈ n, Node.item (H := H) j ≠ .item i := by
    rintro j hj ⟨⟩
    exact hin hj
  have hpn : ∀ j ∈ n, Node.item j ≠ p := by
    intro j hj
    have hjm : j ∉ m := fun hmem => hdisj j hmem j (List.mem_cons_of_mem _ hj) rfl
    exact ne_last hpcases nofun (by simpa using hjm)
  have hqm : ∀ j ∈ m, Node.item j ≠ q := by
    intro j hj
    have hjn : j ∉ n := fun hmem => hdisj j hj j (List.mem_cons_of_mem _ hmem) rfl
    exact ne_first hqcases nofun (by simpa using hjn)
  set L' := inithead (.item i) (L.link p q) with hL'
  have hnext : ∀ z, z ≠ .item i → z ≠ p → L'.next z = L.next z := fun z hzi hzp =>
    (inithead_sameAt hzi).1.trans (link_next_of_ne hzp)
  have hprev : ∀ z, z ≠ .item i → z ≠ q → L'.prev z = L.prev z := fun z hzi hzq =>
    (inithead_sameAt hzi).2.trans (link_prev_of_ne hzq)
  have hlinked : L'.Linked p q := ⟨(inithead_sameAt hpi).1.trans (linked_link ..).1,
    (inithead_sameAt hqi).2.trans (linked_link ..).2⟩
  have hright : L'.Path p n (.head h) :=
    hn.relink_start hnnodup hq hlinked (fun j hj => hnext _ (hni j hj) (hpn j hj))
      (fun j hj => hprev _ (hni j hj)) (hprev _ nofun)
  refine ⟨L', delinit_eq hp hq, ⟨?_, ?_⟩, linked_inithead .., fun z hz hitems => ?_⟩
  · rw [List.erase_append_right _ him, List.erase_cons_head]
    rcases hpcases with ⟨rfl, rfl⟩ | ⟨m', j, rfl, rfl⟩
    · exact hright
    · rw [List.append_assoc]
      refine path_append.mpr ⟨(path_append.mp hm).1.congr (hnext _ nofun nofun) (fun k hk => ?_)
        (hprev _ hpi (hqm j (by simp))), hright⟩
      have hkm : k ∈ m' ++ [j] := List.mem_append_left _ hk
      have hkj : Node.item (H := H) k ≠ .item j := by
        rintro ⟨⟩
        exact (List.nodup_append.mp hmnodup).2.2 j hk j (List.mem_singleton_self j) rfl
      exact ⟨hnext _ (hmi k hkm) hkj, hprev _ (hmi k hkm) (hqm k hkm)⟩
  · exact hlist.nodup.erase i
  · rw [List.map_append, List.map_cons, List.mem_append, List.mem_cons, not_or, not_or] at hitems
    obtain ⟨hzm, hzi, hzn⟩ := hitems
    exact ⟨hnext z hzi (ne_last hpcases hz hzm), hprev z hzi (ne_first hqcases hz hzn)⟩

end

/-! ## Families of lists -/

/-- Every head has its list, and no item is in two of them. -/
structure Lists (L : Links H I) (l : H → List I) : Prop where
  isList : ∀ h, L.IsList h (l h)
  unique : ∀ i h h', i ∈ l h → i ∈ l h' → h = h'

theorem lists_empty : (empty : Links H I).Lists fun _ => [] :=
  ⟨isList_empty, fun _ _ _ hi => absurd hi List.not_mem_nil⟩

theorem IsList.not_alone (hlist : L.IsList h l) (hi : i ∈ l) : ¬ L.Alone i := by
  obtain ⟨m, n, rfl⟩ := List.append_of_mem hi
  obtain ⟨q, hq, hcases⟩ := (path_append.mp hlist.path).2.first
  intro halone
  have hqi := Option.some.inj (hq.1.symm.trans halone.1)
  rcases hcases with ⟨-, rfl⟩ | ⟨k, n', rfl, rfl⟩
  · simp at hqi
  · have hnodup := (List.nodup_append.mp hlist.nodup).2.1
    simp_all

theorem Alone.congr (hj : L.Alone j) (hsame : SameAt L L' (.item j)) : L'.Alone j :=
  ⟨hsame.1.trans hj.1, hsame.2.trans hj.2⟩

section

variable [DecidableEq H] [DecidableEq I] {f : H → List I}

theorem Lists.inithead (hL : L.Lists f) (hi : ∀ h, i ∉ f h) :
    (L.inithead (.item i)).Lists f ∧ (L.inithead (.item i)).Alone i ∧
      ∀ j, L.Alone j → (L.inithead (.item i)).Alone j := by
  have hself := linked_inithead (.item i) L
  refine ⟨⟨fun h => (hL.isList h).congr (inithead_sameAt (by simp)) fun j hj => ?_, hL.unique⟩,
    hself, fun j hj => ?_⟩
  · refine inithead_sameAt fun hji => hi h ?_
    rw [← Node.item.inj hji]
    exact hj
  · by_cases hji : j = i
    · rw [hji]
      exact hself
    · exact hj.congr (inithead_sameAt (by simpa using hji))

/-- An item is taken out of the list that it is in, if there is one. -/
theorem Lists.delinit (hL : L.Lists f) (hi : (∃ h, i ∈ f h) ∨ L.Alone i) :
    ∃ L', L.delinit i = some L' ∧ L'.Lists (fun h => (f h).erase i) ∧ L'.Alone i ∧
      ∀ j, L.Alone j → L'.Alone j := by
  have hsub : ∀ j h h', j ∈ (f h).erase i → j ∈ (f h').erase i → h = h' := fun j h h' hj hj' =>
    hL.unique j h h' (List.mem_of_mem_erase hj) (List.mem_of_mem_erase hj')
  rcases hi with ⟨h, hi⟩ | halone
  · obtain ⟨L', hL', hlist, halone, hsame⟩ := delinit_isList (hL.isList h) hi
    refine ⟨L', hL', ⟨fun h' => ?_, hsub⟩, halone, fun j hj => hj.congr (hsame _ (by simp) ?_)⟩
    · by_cases hh : h' = h
      · rw [hh]
        exact hlist
      · have hnot : ∀ j ∈ f h', j ∉ f h := fun j hj hj' => hh (hL.unique j h' h hj hj')
        rw [List.erase_of_not_mem fun hmem => hnot i hmem hi]
        exact (hL.isList h').congr (hsame _ (by simpa using hh) (by simp))
          fun j hj => hsame _ (by simp) (by simpa using hnot j hj)
    · simpa using fun hmem => (hL.isList h).not_alone hmem hj
  · refine ⟨L, delinit_alone halone, ⟨fun h => ?_, hsub⟩, halone, fun _ hj => hj⟩
    rw [List.erase_of_not_mem fun hmem => (hL.isList h).not_alone hmem halone]
    exact hL.isList h

theorem Lists.addtail (hL : L.Lists f) (hi : L.Alone i) (h : H) :
    ∃ L', L.addtail i h = some L' ∧ L'.Lists (Function.update f h (f h ++ [i])) ∧
      ∀ j, j ≠ i → L.Alone j → L'.Alone j := by
  have hnot : ∀ h', i ∉ f h' := fun h' hmem => (hL.isList h').not_alone hmem hi
  obtain ⟨L', hL', hlist, hsame⟩ := addtail_isList (hL.isList h) (hnot h)
  have hmem : ∀ j h', j ∈ Function.update f h (f h ++ [i]) h' → j ∈ f h' ∨ j = i ∧ h' = h := by
    intro j h' hj
    by_cases hh : h' = h
    · subst hh
      simpa using hj
    · rw [Function.update_of_ne hh] at hj
      exact .inl hj
  refine ⟨L', hL', ⟨fun h' => ?_, fun j h₁ h₂ h₁j h₂j => ?_⟩, fun j hji hj => ?_⟩
  · by_cases hh : h' = h
    · subst hh
      rw [Function.update_self]
      exact hlist
    · rw [Function.update_of_ne hh]
      refine (hL.isList h').congr (hsame _ (by simpa using hh) (by simp)) fun j hj =>
        hsame _ (by simp) ?_
      have hji : j ≠ i := fun hji => hnot h' (hji ▸ hj)
      have hjh : j ∉ f h := fun hjh => hh (hL.unique j h' h hj hjh)
      simp [hji, hjh]
  · rcases hmem j h₁ h₁j with hold₁ | ⟨rfl, rfl⟩
    · rcases hmem j h₂ h₂j with hold₂ | ⟨rfl, -⟩
      · exact hL.unique j h₁ h₂ hold₁ hold₂
      · exact absurd hold₁ (hnot h₁)
    · rcases hmem j h₂ h₂j with hold₂ | ⟨-, rfl⟩
      · exact absurd hold₂ (hnot h₂)
      · rfl
  · have hjh : j ∉ f h := fun hjh => (hL.isList h).not_alone hjh hj
    exact hj.congr (hsame _ (by simp) (by simp [hji, hjh]))

end

/-! ## Items that are put into a second list -/

/-- Where the next pointers of the other nodes are the same, the path still comes to the item. -/
theorem Path.mem_of_next {l' : List I} (hpath : L.Path x l y) (hpath' : L'.Path x l' (.head h))
    (hi : i ∈ l) (hx : x ≠ .item i) (hnext : ∀ z, z ≠ .item i → L'.next z = L.next z) :
    i ∈ l' := by
  induction l generalizing x l' with
  | nil => exact absurd hi List.not_mem_nil
  | cons j l ih =>
      have hfirst : L'.next x = some (.item j) := (hnext x hx).trans hpath.1.1
      cases l' with
      | nil => exact absurd (hfirst.symm.trans hpath'.1) (by simp)
      | cons k l' =>
          obtain rfl : j = k := by simpa using hfirst.symm.trans hpath'.1.1
          by_cases hji : j = i
          · rw [hji]
            exact List.mem_cons_self
          · have hil : i ∈ l := (List.mem_cons.mp hi).resolve_left (Ne.symm hji)
            exact List.mem_cons_of_mem _ (ih hpath.2 hpath'.2 hil (by simpa using hji))

/-- If an item of a list is linked to itself alone and the nodes before it still lead to it, the
head is never met again. -/
theorem IsList.not_isList_of_next (hlist : L.IsList h l) (hi : i ∈ l) (halone : L'.Alone i)
    (hnext : ∀ z, z ≠ .item i → L'.next z = L.next z) (l' : List I) : ¬ L'.IsList h l' :=
  fun hlist' => hlist'.not_alone (hlist.path.mem_of_next hlist'.path hi nofun hnext) halone

section

variable [DecidableEq H] [DecidableEq I] {L₁ L₂ : Links H I}

/-- To put an item at the end of a list and take it out again, wherever it was before, links it to
itself and leaves the next pointers of all other nodes. -/
theorem delinit_addtail_next (hlist : L.IsList h l) (hadd : L.addtail i h = some L₁)
    (hdel : L₁.delinit i = some L₂) :
    L₂.Alone i ∧ ∀ z, z ≠ .item i → L₂.next z = L.next z := by
  obtain ⟨p, hp, -⟩ := hlist.path.last
  rw [addtail_eq hp.2, Option.some.injEq] at hadd
  have hprev : L₁.prev (.item i) = some p := by
    rw [← hadd]
    exact (linked_link p (.item i) _).2
  obtain ⟨p', hp', hdel⟩ := Option.bind_eq_some_iff.mp hdel
  obtain ⟨n, hn, hdel⟩ := Option.bind_eq_some_iff.mp hdel
  obtain rfl : p = p' := Option.some.inj (hprev.symm.trans hp')
  rw [← Option.some.inj hdel]
  refine ⟨linked_inithead .., fun z hz => (inithead_sameAt hz).1.trans ?_⟩
  by_cases hzp : z = p
  · subst hzp
    have hhead : L₁.next (.item i) = some (.head h) := by
      rw [← hadd, link_next_of_ne hz.symm]
      exact (linked_link (.item i) (.head h) L).1
    rw [Option.some.inj (hn.symm.trans hhead), hp.1]
    exact (linked_link z (.head h) L₁).1
  · refine (link_next_of_ne hzp).trans ?_
    rw [← hadd, link_next_of_ne hzp, link_next_of_ne hz]

end

/-! ## Links that lead nowhere else -/

def Inside (R : Set I) : Node H I → Prop
  | .head _ => True
  | .item i => i ∈ R

/-- The links of the heads and of the items in `R` are there and do not leave them, and no other
item has ever been linked. -/
structure Closed (L : Links H I) (R : Set I) : Prop where
  prev : ∀ x, Inside R x → ∃ y, L.prev x = some y ∧ Inside R y
  next : ∀ x, Inside R x → ∃ y, L.next x = some y ∧ Inside R y
  bare : ∀ i ∉ R, L.prev (.item i) = none

/-- The item is met from the head on, whether or not the head is met again. -/
def OnList (L : Links H I) (h : H) (i : I) : Prop :=
  Relation.ReflTransGen (fun x y => L.next x = some y) (.head h) (.item i)

variable {R : Set I}

theorem Inside.mono {R' : Set I} (hx : Inside R x) (hsub : R ⊆ R') : Inside R' x := by
  cases x with
  | head h => trivial
  | item i => exact hsub hx

theorem closed_empty : (empty : Links H I).Closed ∅ := by
  refine ⟨fun x hx => ?_, fun x hx => ?_, fun _ _ => rfl⟩
  · cases x with
    | head h => exact ⟨_, rfl, trivial⟩
    | item i => exact absurd hx (Set.notMem_empty i)
  · cases x with
    | head h => exact ⟨_, rfl, trivial⟩
    | item i => exact absurd hx (Set.notMem_empty i)

section

variable [DecidableEq H] [DecidableEq I]

theorem Closed.link (hL : L.Closed R) (hx : Inside R x) (hy : Inside R y) :
    (L.link x y).Closed R := by
  refine ⟨fun z hz => ?_, fun z hz => ?_, fun i hi => ?_⟩
  · by_cases hzy : z = y
    · exact ⟨x, hzy ▸ (linked_link x y L).2, hx⟩
    · rw [link_prev_of_ne hzy]
      exact hL.prev z hz
  · by_cases hzx : z = x
    · exact ⟨y, hzx ▸ (linked_link x y L).1, hy⟩
    · rw [link_next_of_ne hzx]
      exact hL.next z hz
  · rw [link_prev_of_ne fun hiy => hi (by rw [← hiy] at hy; exact hy)]
    exact hL.bare i hi

theorem Closed.inithead (hL : L.Closed R) (i : I) :
    (L.inithead (.item i)).Closed (insert i R) := by
  have hself : Inside (insert i R) (.item i : Node H I) := Set.mem_insert i R
  have hold : ∀ z : Node H I, z ≠ .item i → Inside (insert i R) z → Inside R z := by
    intro z hz hin
    cases z with
    | head h => trivial
    | item j => exact hin.resolve_left (by simpa using hz)
  refine ⟨fun z hz => ?_, fun z hz => ?_, fun j hj => ?_⟩
  · by_cases hzi : z = .item i
    · exact ⟨.item i, hzi ▸ (linked_inithead (.item i) L).2, hself⟩
    · obtain ⟨y, hy, hin⟩ := hL.prev z (hold z hzi hz)
      exact ⟨y, (inithead_sameAt hzi).2.trans hy, hin.mono (Set.subset_insert i R)⟩
  · by_cases hzi : z = .item i
    · exact ⟨.item i, hzi ▸ (linked_inithead (.item i) L).1, hself⟩
    · obtain ⟨y, hy, hin⟩ := hL.next z (hold z hzi hz)
      exact ⟨y, (inithead_sameAt hzi).1.trans hy, hin.mono (Set.subset_insert i R)⟩
  · obtain ⟨hji, hjR⟩ := not_or.mp hj
    exact (inithead_sameAt (by simpa using hji)).2.trans (hL.bare j hjR)

theorem Closed.addtail (hL : L.Closed R) (hi : i ∈ R) (h : H) :
    ∃ L', L.addtail i h = some L' ∧ L'.Closed R := by
  obtain ⟨p, hp, hin⟩ := hL.prev (.head h) trivial
  have hitem : Inside R (.item i : Node H I) := hi
  have hhead : Inside R (.head h : Node H I) := trivial
  exact ⟨_, addtail_eq hp, (hL.link hitem hhead).link hin hitem⟩

theorem Closed.delinit (hL : L.Closed R) (hi : i ∈ R) :
    ∃ L', L.delinit i = some L' ∧ L'.Closed R := by
  obtain ⟨p, hp, hpin⟩ := hL.prev (.item i) hi
  obtain ⟨n, hn, hnin⟩ := hL.next (.item i) hi
  have hinit := (hL.link hpin hnin).inithead i
  rw [Set.insert_eq_of_mem hi] at hinit
  refine ⟨_, ?_, hinit⟩
  rw [Links.delinit, hp, hn]
  rfl

theorem Closed.forget (hL : L.Closed R) (hi : i ∉ R) : (L.forget (.item i)).Closed R := by
  have hne : ∀ x : Node H I, Inside R x → x ≠ .item i := by
    rintro x hx rfl
    exact hi hx
  have hold : ∀ x : Node H I, Inside R x → SameAt L (L.forget (.item i)) x := fun x hx =>
    ⟨Function.update_of_ne (hne x hx) .., Function.update_of_ne (hne x hx) ..⟩
  refine ⟨fun x hx => ?_, fun x hx => ?_, fun j hj => ?_⟩
  · rw [(hold x hx).2]
    exact hL.prev x hx
  · rw [(hold x hx).1]
    exact hL.next x hx
  · refine (Function.update_apply ..).trans ?_
    split
    · rfl
    · exact hL.bare j hj

theorem Closed.mem_of_delinit (hL : L.Closed R) (hdel : L.delinit i = some L') : i ∈ R := by
  by_contra hi
  rw [Links.delinit, hL.bare i hi] at hdel
  simp at hdel

end

section

variable [DecidableEq H] [DecidableEq I]

theorem isLinked_forget_self (x : Node H I) (L : Links H I) : (L.forget x).isLinked x = false := by
  rw [isLinked, forget]
  dsimp only
  rw [Function.update_self, Function.update_self]
  rfl

theorem isLinked_forget_of_ne (hy : y ≠ x) : (L.forget x).isLinked y = L.isLinked y := by
  rw [isLinked, isLinked, forget]
  dsimp only
  rw [Function.update_of_ne hy, Function.update_of_ne hy]

end

theorem Closed.onList_mem (hL : L.Closed R) (hi : L.OnList h i) : i ∈ R := by
  suffices hall : ∀ y, Relation.ReflTransGen (fun x y => L.next x = some y) (.head h) y →
      Inside R y from hall _ hi
  intro y hy
  induction hy with
  | refl => trivial
  | tail _ hstep ih =>
      obtain ⟨z, hz, hin⟩ := hL.next _ ih
      rwa [Option.some.inj (hstep.symm.trans hz)]

theorem onList_of_mem_entries [DecidableEq H] {fuel : ℕ} (hl : L.entries fuel h = some l) :
    ∀ i ∈ l, L.OnList h i := by
  suffices hall : ∀ fuel x l, Relation.ReflTransGen (fun x y => L.next x = some y) (.head h) x →
      L.walk h fuel x = some l → ∀ i ∈ l, L.OnList h i by
    obtain ⟨x, hx, hwalk⟩ := Option.bind_eq_some_iff.mp hl
    exact hall fuel x l (.single hx) hwalk
  intro fuel
  induction fuel with
  | zero =>
      intro x l hx hwalk
      cases x with
      | head h' => simp_all [walk]
      | item i => simp [walk] at hwalk
  | succ fuel ih =>
      intro x l hx hwalk
      cases x with
      | head h' => simp_all [walk]
      | item j =>
          rw [walk] at hwalk
          obtain ⟨n, hn, hwalk⟩ := Option.bind_eq_some_iff.mp hwalk
          obtain ⟨l', hl', rfl⟩ := Option.map_eq_some_iff.mp hwalk
          exact List.forall_mem_cons.mpr ⟨hx, ih n l' (hx.tail hn) hl'⟩

end Links
