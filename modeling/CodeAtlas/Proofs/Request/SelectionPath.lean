import CodeAtlas.Proofs.Request.Selection
import CodeAtlas.Proofs.Syntax.Paths

/-!
# Selection ranges and paths

A selection takes in every node that touches the cursor and lies within the last range taken, wherever in the
tree it stands. In a tree with its ranges in their places these are the nodes on the path to the cursor, but
for empty ranges: a sibling that touches the cursor from the right does not lie within what ends there.
-/

namespace CodeAtlas

open SyntaxNode (ChildrenInOrder Descent Everywhere HoldsChildren Site sitesInSlots)

/-- A range that has bytes in it. -/
def ByteRange.HasBytes (r : ByteRange) : Prop :=
  r.start < r.stop

instance : DecidablePred ByteRange.HasBytes := fun r =>
  inferInstanceAs (Decidable (r.start < r.stop))

namespace Selection

variable {cursor limit : Nat} {found : List ByteRange} {r outer : ByteRange} {n : SyntaxNode}

/-- The ranges collected when some sites have been visited after others. -/
def collect (cursor : Nat) (found : List ByteRange) (ts : List Site) : List ByteRange :=
  ts.foldl (fun found t => (listener cursor).handle found .anyNode t.node) found

theorem ranges_eq_collect (root : SyntaxNode) (cursor : Nat) :
    ranges root cursor = (collect cursor [] root.sites).reverse := by
  rw [ranges, Listener.run_eq_foldl_sites rfl, collect]

theorem collect_append (ts ts' : List Site) :
    collect cursor found (ts ++ ts') = collect cursor (collect cursor found ts) ts' :=
  List.foldl_append

/-- The ranges of some nodes that have bytes in them, the last node first. -/
def withBytes (path : List SyntaxNode) : List ByteRange :=
  ((path.map (·.range)).filter fun r => r.HasBytes).reverse

theorem filter_cons_range (n : SyntaxNode) (found : List ByteRange) :
    (n.range :: found).filter (fun r => r.HasBytes) =
      withBytes [n] ++ found.filter fun r => r.HasBytes := by
  by_cases bytes : n.range.HasBytes
  · simp [withBytes, bytes]
  · simp [withBytes, bytes]

theorem withBytes_cons (n : SyntaxNode) (path : List SyntaxNode) :
    withBytes (n :: path) = withBytes path ++ withBytes [n] := by
  rw [← List.singleton_append, withBytes, List.map_append, List.filter_append, List.reverse_append]
  rfl

/-! ## What changes nothing -/

theorem collect_of_untouched {ts : List Site} (untouched : ∀ t ∈ ts, ¬t.node.covers cursor) :
    collect cursor found ts = found := by
  induction ts with
  | nil => rfl
  | cons t ts ih =>
      obtain ⟨outside, untouched⟩ := List.forall_mem_cons.mp untouched
      rw [collect, List.foldl_cons, show (listener cursor).handle found .anyNode t.node = found from
        if_neg outside]
      exact ih untouched

/-- The last range collected only gets narrower. -/
theorem head?_collect (ts : List Site) (last : found.head? = some outer) :
    ∃ inner, (collect cursor found ts).head? = some inner ∧ inner.Within outer := by
  induction ts generalizing found outer with
  | nil => exact ⟨outer, last, .refl _⟩
  | cons t ts ih =>
      rw [collect, List.foldl_cons, ← collect]
      rcases handle_cases cursor found .anyNode t.node with ⟨-, added, within⟩ | ⟨-, kept⟩
      · have next : (t.node.range :: found).head? = some t.node.range := rfl
        obtain ⟨inner, head, inside⟩ := ih next
        rw [added]
        exact ⟨inner, head, inside.trans (within outer last)⟩
      · rw [kept]
        exact ih last

/-- When what is left to visit starts where the last range ends or behind it, only empty ranges are added. -/
theorem filter_collect_of_behind {ts : List Site} (last : found.head? = some r) (ends : r.stop ≤ limit)
    (behind : ∀ t ∈ ts, t.node.covers cursor → limit ≤ t.node.range.start) :
    (collect cursor found ts).filter (fun r => r.HasBytes) = found.filter fun r => r.HasBytes := by
  induction ts generalizing found r with
  | nil => rfl
  | cons t ts ih =>
      obtain ⟨starts, behind⟩ := List.forall_mem_cons.mp behind
      rw [collect, List.foldl_cons, ← collect]
      rcases handle_cases cursor found .anyNode t.node with ⟨covers, added, within⟩ | ⟨-, kept⟩
      · have stop_le : t.node.range.stop ≤ limit := Nat.le_trans (within r last).2 ends
        have empty : ¬t.node.range.HasBytes := Nat.not_lt.mpr (Nat.le_trans stop_le (starts covers))
        have next : (t.node.range :: found).head? = some t.node.range := rfl
        rw [added, ih next stop_le behind, List.filter_cons_of_neg (by simpa using empty)]
      · rw [kept]
        exact ih last ends behind

/-! ## Along a path -/

theorem handle_of_within (covers : n.covers cursor) (within : ∀ outer ∈ found.head?, n.range.Within outer)
    (event : Event) : (listener cursor).handle found event n = n.range :: found := by
  cases found with
  | nil => exact if_pos covers
  | cons outer rest => exact (if_pos covers).trans (if_pos (within outer rfl))

theorem collect_sitesAt (covers : n.covers cursor) (within : ∀ outer ∈ found.head?, n.range.Within outer)
    (place : List Nat) (around : List SyntaxNode) : collect cursor found (n.sitesAt place around) =
      collect cursor (n.range :: found) (sitesInSlots place (around ++ [n]) 0 n.slots) := by
  obtain ⟨kind, name, range, ownNameRange, slots⟩ := n
  rw [SyntaxNode.sitesAt, collect, List.foldl_cons, handle_of_within covers within, ← collect]

section Slots

variable {slots : List (Option SyntaxNode)} {child : SyntaxNode} {place : List Nat}
  {around : List SyntaxNode} {i k : Nat}

theorem untouched_of_uncovered
    (holds : ∀ (j : Nat) other, slots[j]? = some (some other) → other.Everywhere HoldsChildren)
    (uncovered : ∀ (j : Nat) other, slots[j]? = some (some other) → ¬other.covers cursor) :
    ∀ t ∈ sitesInSlots place around k slots, ¬t.node.covers cursor := by
  intro t mem touches
  obtain ⟨j, other, place', around', -, -, slot, way⟩ := (SyntaxNode.mem_sitesInSlots slots k).mp mem
  exact uncovered j other slot (SyntaxNode.covers_of_way (holds j other slot) way touches)

/-- No node before the first child that covers the cursor touches it. -/
theorem untouched_before (holds : n.Everywhere HoldsChildren)
    (first : ∀ (j : Nat) other, j < i → n.slots[j]? = some (some other) → ¬other.covers cursor) :
    ∀ t ∈ sitesInSlots place around k (n.slots.take i), ¬t.node.covers cursor := by
  have taken (j : Nat) (other : SyntaxNode) (slot : (n.slots.take i)[j]? = some (some other)) :
      j < i ∧ n.slots[j]? = some (some other) := by
    rw [List.getElem?_take] at slot
    split at slot
    · next lt => exact ⟨lt, slot⟩
    · cases slot
  refine untouched_of_uncovered (fun j other slot => ?_) (fun j other slot => ?_)
  · exact holds.of_slot (taken j other slot).2
  · exact first j other (taken j other slot).1 (taken j other slot).2

/-- Behind a child all nodes start where it ends, or later. -/
theorem stop_le_start_behind (holds : n.Everywhere HoldsChildren) (inOrder : n.ChildrenInOrder)
    (slot : n.slots[i]? = some (some child)) :
    ∀ t ∈ sitesInSlots place around k (n.slots.drop (i + 1)), child.range.stop ≤ t.node.range.start := by
  intro t mem
  obtain ⟨j, other, place', around', -, -, slot', way⟩ := (SyntaxNode.mem_sitesInSlots _ k).mp mem
  rw [List.getElem?_drop] at slot'
  have starts : child.range.stop ≤ other.range.start := inOrder.stop_le_start (by omega) slot slot'
  exact Nat.le_trans starts (SyntaxNode.within_of_way (holds.of_slot slot') way).1

end Slots

/-- Of a node that touches the cursor and lies within the last range, the ranges that have bytes in them are
collected along the way down to the cursor. -/
theorem filter_collect_of_descent {leaf : SyntaxNode} {way : List Nat} {passed : List SyntaxNode}
    (descent : Descent cursor n way passed leaf) (holds : n.Everywhere HoldsChildren)
    (inOrder : n.Everywhere ChildrenInOrder) (covers : n.covers cursor)
    (within : ∀ outer ∈ found.head?, n.range.Within outer) (place : List Nat)
    (around : List SyntaxNode) :
    (collect cursor found (n.sitesAt place around)).filter (fun r => r.HasBytes) =
      withBytes (passed ++ [leaf]) ++ found.filter fun r => r.HasBytes := by
  induction descent generalizing found place around with
  | @here n uncovered =>
      have untouched : ∀ t ∈ sitesInSlots place (around ++ [n]) 0 n.slots, ¬t.node.covers cursor :=
        untouched_of_uncovered (fun j other slot => holds.of_slot slot)
          (fun j other slot => uncovered other (SyntaxNode.mem_children_iff.mpr ⟨j, slot⟩))
      rw [collect_sitesAt covers within, collect_of_untouched untouched, filter_cons_range]
      rfl
  | @step n child leaf i way passed slot touches first descent ih =>
      have inside : ∀ outer ∈ (n.range :: found).head?, child.range.Within outer := by
        rintro outer ⟨⟩
        exact holds.here child (SyntaxNode.mem_children_iff.mpr ⟨i, slot⟩)
      obtain ⟨r, last, ends⟩ : ∃ r, (collect cursor (n.range :: found) (child.sitesAt (place ++ [0 + i])
          (around ++ [n]))).head? = some r ∧ r.Within child.range := by
        rw [collect_sitesAt touches inside]
        exact head?_collect _ rfl
      -- Before the child nothing is added. What stands behind it starts where the ranges collected in the
      -- child end, or later, and only empty ranges are added.
      rw [collect_sitesAt covers within, SyntaxNode.sitesInSlots_divide slot, collect_append,
        collect_append, collect_of_untouched (untouched_before holds first),
        filter_collect_of_behind last ends.2
          (fun t mem _ => stop_le_start_behind holds inOrder.here slot t mem),
        ih (holds.of_slot slot) (inOrder.of_slot slot) touches inside, filter_cons_range,
        List.cons_append, withBytes_cons n (passed ++ [leaf]), List.append_assoc]

/-- In a tree with its ranges in their places, the ranges that are selected around a cursor are those of the
path to it, up to empty ones. -/
theorem ranges_along_path (root : SyntaxNode) (cursor : Nat) (holds : root.Everywhere HoldsChildren)
    (inOrder : root.Everywhere ChildrenInOrder) :
    (ranges root cursor).filter (fun r => r.HasBytes) =
      ((root.pathAt cursor).map (·.range)).filter fun r => r.HasBytes := by
  rw [ranges_eq_collect, List.filter_reverse]
  by_cases covers : root.covers cursor
  · obtain ⟨leaf, descent, path_eq⟩ := SyntaxNode.exists_descent_pathAt covers
    rw [SyntaxNode.sites, filter_collect_of_descent descent holds inOrder covers (by simp), ← path_eq,
      List.filter_nil, List.append_nil, withBytes, List.reverse_reverse, SyntaxNode.Site.path]
  · have untouched : ∀ t ∈ root.sites, ¬t.node.covers cursor := fun t mem touches =>
      covers (SyntaxNode.covers_of_way holds (SyntaxNode.mem_sites.mp mem) touches)
    rw [collect_of_untouched untouched, SyntaxNode.pathAt_eq_nil_iff.mpr covers]
    rfl

/-- Between two nodes that meet at the cursor, where empty ones stand as well. -/
theorem ranges_along_path_between :
    let left : SyntaxNode := ⟨.args, none, ⟨0, 5⟩, none, [some (.leaf .nil ⟨5, 5⟩)]⟩
    let right : SyntaxNode := ⟨.args, none, ⟨5, 9⟩, none, [some (.leaf .nil ⟨5, 5⟩)]⟩
    let root : SyntaxNode :=
      ⟨.call, none, ⟨0, 9⟩, none, [some left, none, some (.leaf .nil ⟨5, 5⟩), some right]⟩
    root.Everywhere HoldsChildren ∧ root.Everywhere ChildrenInOrder ∧
      (ranges root 5).filter (fun r => r.HasBytes) = [⟨0, 9⟩, ⟨0, 5⟩] := by
  intro left right root
  have holds : root.Everywhere HoldsChildren := by decide
  have inOrder : root.Everywhere ChildrenInOrder := by decide
  exact ⟨holds, inOrder, (ranges_along_path root 5 holds inOrder).trans (by decide)⟩

end Selection

end CodeAtlas
