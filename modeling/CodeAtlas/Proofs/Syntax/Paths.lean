import CodeAtlas.Proofs.Position.Order
import CodeAtlas.Proofs.Syntax.Sites
import Mathlib.Data.List.Chain

/-!
# Paths to an offset

The path to an offset goes down from the root to the first child that covers the offset, as long as there is
one. Where no node reaches over its parent, nothing below the last node of the path covers the offset, and
where siblings stand one behind the other as well, the path passes every node that has the offset strictly
inside.
-/

namespace CodeAtlas

namespace ByteRange

variable {r r' r'' : ByteRange}

instance : Decidable (r.Within r') :=
  inferInstanceAs (Decidable (_ ∧ _))

theorem Within.refl (r : ByteRange) : r.Within r :=
  ⟨Nat.le_refl _, Nat.le_refl _⟩

theorem Within.trans (within : r.Within r') (within' : r'.Within r'') : r.Within r'' :=
  ⟨Nat.le_trans within'.1 within.1, Nat.le_trans within.2 within'.2⟩

theorem Within.contains {offset : Nat} (within : r.Within r') (contains : r.Contains offset) :
    r'.Contains offset :=
  ⟨Nat.le_trans within.1 contains.1, Nat.le_trans contains.2 within.2⟩

end ByteRange

namespace SyntaxNode

variable {n m child : SyntaxNode} {place place' : List Nat} {around around' : List SyntaxNode} {i j : Nat}

/-! ## Trees with ranges in their places -/

/-- A property of every node of a tree. -/
def Everywhere (P : SyntaxNode → Prop) (root : SyntaxNode) : Prop :=
  ∀ t ∈ root.sites, P t.node

/-- The children of a node lie within it. -/
def HoldsChildren (n : SyntaxNode) : Prop :=
  ∀ child ∈ n.children, child.range.Within n.range

/-- A child of a node ends no later than any child behind it starts. -/
def ChildrenInOrder (n : SyntaxNode) : Prop :=
  n.children.Pairwise fun child later => child.range.stop ≤ later.range.start

instance : DecidablePred HoldsChildren := fun n =>
  inferInstanceAs (Decidable (∀ child ∈ n.children, child.range.Within n.range))

instance : DecidablePred ChildrenInOrder := fun n =>
  inferInstanceAs (Decidable (n.children.Pairwise fun child later => child.range.stop ≤ later.range.start))

section Everywhere

variable {P : SyntaxNode → Prop}

instance [DecidablePred P] : Decidable (n.Everywhere P) :=
  inferInstanceAs (Decidable (∀ t ∈ n.sites, P t.node))

theorem Everywhere.of_way (all : n.Everywhere P) (way : Way n place around m) : m.Everywhere P :=
  fun t mem => all ⟨place ++ t.place, around ++ t.around, t.node⟩
    (mem_sites.mpr (way.trans (mem_sites.mp mem)))

theorem Everywhere.here (all : n.Everywhere P) : P n :=
  all ⟨[], [], n⟩ (mem_sites.mpr (.here n))

theorem Everywhere.of_slot (all : n.Everywhere P) (slot : n.slots[i]? = some (some child)) :
    child.Everywhere P :=
  all.of_way (.step slot (.here child))

end Everywhere

theorem mem_children_iff : child ∈ n.children ↔ ∃ i : Nat, n.slots[i]? = some (some child) := by
  rw [children, List.mem_filterMap, ← List.mem_iff_getElem?]
  simp

theorem ChildrenInOrder.stop_le_start (inOrder : n.ChildrenInOrder) {later : SyntaxNode} (lt : i < j)
    (slot : n.slots[i]? = some (some child)) (slot' : n.slots[j]? = some (some later)) :
    child.range.stop ≤ later.range.start := by
  rw [ChildrenInOrder, children, List.pairwise_filterMap, List.pairwise_iff_getElem] at inOrder
  obtain ⟨inside, slot⟩ := List.getElem?_eq_some_iff.mp slot
  obtain ⟨inside', slot'⟩ := List.getElem?_eq_some_iff.mp slot'
  exact inOrder i j inside inside' lt child slot later slot'

theorem within_of_way (holds : n.Everywhere HoldsChildren) (way : Way n place around m) :
    m.range.Within n.range := by
  induction way with
  | here n => exact .refl _
  | step slot way ih =>
      exact (ih (holds.of_slot slot)).trans (holds.here _ (mem_children_iff.mpr ⟨_, slot⟩))

/-- Of two nodes the one that comes later lies within the other one, or starts no earlier than that ends. -/
theorem within_or_stop_le_start (holds : n.Everywhere HoldsChildren)
    (inOrder : n.Everywhere ChildrenInOrder) {m' : SyntaxNode} (way : Way n place around m)
    (way' : Way n place' around' m') (precedes : List.Lex (· < ·) place place') :
    m'.range.Within m.range ∨ m.range.stop ≤ m'.range.start := by
  induction way generalizing place' around' with
  | here n => exact .inl (within_of_way holds way')
  | @step n child m i place around slot way ih =>
      cases way' with
      | here => cases precedes
      | @step _ child' _ j place' around' slot' way' =>
          cases precedes with
          | cons precedes =>
              rw [slot] at slot'
              cases slot'
              exact ih (holds.of_slot slot) (inOrder.of_slot slot) way' precedes
          | rel lt =>
              have ends := (within_of_way (holds.of_slot slot) way).2
              have apart := inOrder.here.stop_le_start lt slot slot'
              have starts := (within_of_way (holds.of_slot slot') way').1
              exact .inr (Nat.le_trans ends (Nat.le_trans apart starts))

theorem covers_iff {offset : Nat} : n.covers offset ↔ n.range.Contains offset := by
  rw [covers, Bool.and_eq_true, decide_eq_true_eq, decide_eq_true_eq]
  rfl

theorem covers_of_way {offset : Nat} (holds : n.Everywhere HoldsChildren) (way : Way n place around m)
    (covers : m.covers offset) : n.covers offset :=
  covers_iff.mpr ((within_of_way holds way).contains (covers_iff.mp covers))

/-! ## Going down -/

/-- From a node it goes down some slots, past the nodes `around`, each time to the first child that covers an
offset, and no further. -/
inductive Descent (offset : Nat) : SyntaxNode → List Nat → List SyntaxNode → SyntaxNode → Prop
  | here {n : SyntaxNode} (uncovered : ∀ child ∈ n.children, ¬child.covers offset) :
      Descent offset n [] [] n
  | step {n child m : SyntaxNode} {i : Nat} {place : List Nat} {around : List SyntaxNode}
      (slot : n.slots[i]? = some (some child)) (covers : child.covers offset)
      (first : ∀ j other, j < i → n.slots[j]? = some (some other) → ¬other.covers offset)
      (descent : Descent offset child place around m) : Descent offset n (i :: place) (n :: around) m

section Descent

variable {offset : Nat}

theorem Descent.way (descent : Descent offset n place around m) : Way n place around m := by
  induction descent with
  | here => exact .here _
  | step slot covers first descent ih => exact .step slot ih

/-- What the first child in some slots that covers an offset leads to, or that there is none. -/
def LeadDown (offset : Nat) (slots : List (Option SyntaxNode)) : Prop :=
  ((∀ (i : Nat) child, slots[i]? = some (some child) → ¬child.covers offset) ∧
      pathInSlots offset slots = []) ∨
    ∃ (i : Nat) (child : SyntaxNode) (place : List Nat) (around : List SyntaxNode) (leaf : SyntaxNode),
      slots[i]? = some (some child) ∧ child.covers offset ∧
      (∀ (j : Nat) other, j < i → slots[j]? = some (some other) → ¬other.covers offset) ∧
      Descent offset child place around leaf ∧ around ++ [leaf] = pathInSlots offset slots

/-- A slot without a child that covers the offset is passed over. -/
theorem LeadDown.cons {slot : Option SyntaxNode} {rest : List (Option SyntaxNode)}
    (lead : LeadDown offset rest) (skipped : ∀ child, slot = some child → ¬child.covers offset) :
    LeadDown offset (slot :: rest) := by
  have path_eq : pathInSlots offset (slot :: rest) = pathInSlots offset rest := by
    cases slot with
    | none => rw [pathInSlots]
    | some child => rw [pathInSlots, if_neg (skipped child rfl)]
  rw [LeadDown, path_eq]
  rcases lead with ⟨uncovered, ends⟩ | ⟨i, child, place, around, leaf, found, covers, first, down⟩
  · refine .inl ⟨fun i child found => ?_, ends⟩
    cases i with
    | zero => exact skipped child (Option.some.inj found)
    | succ i => exact uncovered i child found
  · refine .inr ⟨i + 1, child, place, around, leaf, found, covers, fun j other lt found' => ?_, down⟩
    cases j with
    | zero => exact skipped other (Option.some.inj found')
    | succ j => exact first j other (Nat.lt_of_succ_lt_succ lt) found'

mutual

theorem exists_descent (offset : Nat) : (n : SyntaxNode) → ∃ place around leaf,
    Descent offset n place around leaf ∧ around ++ [leaf] = n :: n.pathBelow offset
  | ⟨kind, name, range, ownNameRange, slots⟩ => by
      let n : SyntaxNode := ⟨kind, name, range, ownNameRange, slots⟩
      rcases leadDown offset slots with ⟨uncovered, ends⟩ |
        ⟨i, child, place, around, leaf, slot, covers, first, descent, path_eq⟩
      · refine ⟨[], [], n, .here fun child mem => ?_, ?_⟩
        · obtain ⟨i, slot⟩ := mem_children_iff.mp mem
          exact uncovered i child slot
        · rw [pathBelow, ends]
          rfl
      · refine ⟨i :: place, n :: around, leaf, .step slot covers first descent, ?_⟩
        rw [pathBelow, ← path_eq]
        rfl

theorem leadDown (offset : Nat) : (slots : List (Option SyntaxNode)) → LeadDown offset slots
  | [] => .inl ⟨by simp, rfl⟩
  | none :: rest => (leadDown offset rest).cons (by simp)
  | some child :: rest => by
      by_cases covers : child.covers offset
      · obtain ⟨place, around, leaf, descent, path_eq⟩ := exists_descent offset child
        refine .inr ⟨0, child, place, around, leaf, rfl, covers, by simp, descent, ?_⟩
        rw [pathInSlots, if_pos covers, path_eq]
      · refine (leadDown offset rest).cons fun other same => ?_
        cases same
        exact covers

end

/-- The path to an offset is a descent. -/
theorem exists_descent_pathAt {root : SyntaxNode} (covers : root.covers offset) : ∃ leaf : Site,
    Descent offset root leaf.place leaf.around leaf.node ∧ leaf.path = root.pathAt offset := by
  obtain ⟨place, around, leaf, descent, path_eq⟩ := exists_descent offset root
  refine ⟨⟨place, around, leaf⟩, descent, ?_⟩
  rw [pathAt, if_pos covers]
  exact path_eq

theorem pathAt_eq_nil_iff {root : SyntaxNode} : root.pathAt offset = [] ↔ ¬root.covers offset := by
  rw [pathAt]
  split
  · next covers => exact iff_of_false (List.cons_ne_nil _ _) (not_not_intro covers)
  · next uncovered => exact iff_of_true rfl uncovered

/-! ### The path as a chain -/

theorem find?_children (slot : n.slots[i]? = some (some child)) (covers : child.covers offset)
    (first : ∀ (j : Nat) other, j < i → n.slots[j]? = some (some other) → ¬other.covers offset) :
    n.children.find? (·.covers offset) = some child := by
  have found : n.slots.find? (·.any (·.covers offset)) = some (some child) := by
    obtain ⟨inside, slot⟩ := List.getElem?_eq_some_iff.mp slot
    refine List.find?_eq_some_iff_getElem.mpr ⟨covers, i, inside, slot, fun j lt => ?_⟩
    cases slot' : n.slots[j] with
    | none => rfl
    | some other => simpa using first j other lt (List.getElem?_eq_some_iff.mpr ⟨_, slot'⟩)
  rw [children, List.find?_filterMap]
  exact congrArg (·.bind id) found

theorem Descent.head? (descent : Descent offset n place around m) : (around ++ [m]).head? = some n := by
  cases descent with
  | here => rfl
  | step => rfl

theorem Descent.isChain (descent : Descent offset n place around m) :
    (around ++ [m]).IsChain fun n next => n.children.find? (·.covers offset) = some next := by
  induction descent with
  | here => exact .singleton _
  | step slot covers first descent ih =>
      rw [List.cons_append, List.isChain_cons]
      refine ⟨fun next mem => ?_, ih⟩
      rw [descent.head?] at mem
      cases mem
      exact find?_children slot covers first

theorem Descent.uncovered (descent : Descent offset n place around m) :
    ∀ child ∈ m.children, ¬child.covers offset := by
  induction descent with
  | here uncovered => exact uncovered
  | step slot covers first descent ih => exact ih

/-! ### The path in a tree with ranges in their places -/

/-- Nothing below the end of a descent covers the offset. -/
theorem Descent.not_covers_below (descent : Descent offset n place around m)
    (holds : n.Everywhere HoldsChildren) {below : SyntaxNode} (way : Way m place' around' below)
    (proper : place' ≠ []) : ¬below.covers offset := by
  cases way with
  | here => exact absurd rfl proper
  | step slot way =>
      intro covers
      have inside := holds.of_way descent.way
      have covers' := covers_of_way (inside.of_slot slot) way covers
      exact descent.uncovered _ (mem_children_iff.mpr ⟨_, slot⟩) covers'

/-- A descent passes each node that has the offset strictly inside. -/
theorem Descent.passes (descent : Descent offset n place around m) (holds : n.Everywhere HoldsChildren)
    (inOrder : n.Everywhere ChildrenInOrder) {inner : SyntaxNode} (way : Way n place' around' inner)
    (start_lt : inner.range.start < offset) (lt_stop : offset < inner.range.stop) :
    place' <+: place ∧ around' ++ [inner] <+: around ++ [m] := by
  induction way generalizing place around with
  | here n =>
      obtain ⟨rest, path_eq⟩ := List.head?_eq_some_iff.mp descent.head?
      rw [path_eq]
      exact ⟨List.nil_prefix, (List.prefix_cons_inj n).mpr List.nil_prefix⟩
  | @step n child inner i place' around' slot way ih =>
      have within := within_of_way (holds.of_slot slot) way
      have covers : child.covers offset :=
        covers_iff.mpr (within.contains ⟨Nat.le_of_lt start_lt, Nat.le_of_lt lt_stop⟩)
      cases descent with
      | here uncovered => exact absurd covers (uncovered child (mem_children_iff.mpr ⟨i, slot⟩))
      | @step _ taken _ j place around slot' covers' first descent =>
          -- A child before this one ends before the offset, and no child behind it is the first one.
          obtain rfl : j = i := by
            rcases Nat.lt_trichotomy j i with lt | same | gt
            · have ends := inOrder.here.stop_le_start lt slot' slot
              have reaches := (covers_iff.mp covers').2
              have starts := within.1
              omega
            · exact same
            · exact absurd covers (first i child gt slot)
          rw [slot] at slot'
          cases slot'
          obtain ⟨place_starts, path_starts⟩ :=
            ih descent (holds.of_slot slot) (inOrder.of_slot slot) start_lt lt_stop
          exact ⟨(List.prefix_cons_inj j).mpr place_starts, (List.prefix_cons_inj n).mpr path_starts⟩

end Descent

/-- The path to an offset goes from the root to the first child that covers the offset, and on to the first
child of that, until there is none. If no node reaches over its parent it ends below all that covers the
offset, and if siblings stand in order, too, it passes every node that has the offset strictly inside. -/
theorem path_leads_inside (root : SyntaxNode) (offset : Nat) :
    (root.pathAt offset = [] ↔ ¬root.covers offset) ∧
      (root.covers offset → (root.pathAt offset).head? = some root ∧
        ((root.pathAt offset).IsChain fun n next => n.children.find? (·.covers offset) = some next) ∧
        ∃ leaf, root.leafAt? offset = some leaf ∧ leaf.children.find? (·.covers offset) = none) ∧
      (root.Everywhere HoldsChildren →
        (∀ t ∈ root.sites, t.node.covers offset → root.pathAt offset ≠ []) ∧
        ∀ leaf ∈ root.leafAt? offset, ∀ t ∈ leaf.sites, t.place ≠ [] → ¬t.node.covers offset) ∧
      (root.Everywhere HoldsChildren → root.Everywhere ChildrenInOrder → ∀ t ∈ root.sites,
        t.node.range.start < offset → offset < t.node.range.stop →
          ∃ leaf ∈ root.sites, leaf.path = root.pathAt offset ∧ t.place <+: leaf.place ∧
            t.path <+: root.pathAt offset) := by
  refine ⟨pathAt_eq_nil_iff, fun covers => ?_, fun holds => ⟨fun t mem covers => ?_, ?_⟩, ?_⟩
  · obtain ⟨leaf, descent, path_eq⟩ := exists_descent_pathAt covers
    refine ⟨?_, ?_, leaf.node, ?_, ?_⟩
    · rw [← path_eq]
      exact descent.head?
    · rw [← path_eq]
      exact descent.isChain
    · rw [leafAt?, ← path_eq, Site.path, List.getLast?_concat]
    · exact List.find?_eq_none.mpr descent.uncovered
  · exact fun none' => pathAt_eq_nil_iff.mp none' (covers_of_way holds (mem_sites.mp mem) covers)
  · intro leaf last t mem proper
    have covers : root.covers offset := by
      by_contra uncovered
      rw [leafAt?, pathAt_eq_nil_iff.mpr uncovered] at last
      cases last
    obtain ⟨site, descent, path_eq⟩ := exists_descent_pathAt covers
    rw [leafAt?, ← path_eq, Site.path, List.getLast?_concat] at last
    cases last
    exact descent.not_covers_below holds (mem_sites.mp mem) proper
  · intro holds inOrder t mem start_lt lt_stop
    have way := mem_sites.mp mem
    have covers := covers_of_way holds way
      (covers_iff.mpr ⟨Nat.le_of_lt start_lt, Nat.le_of_lt lt_stop⟩)
    obtain ⟨leaf, descent, path_eq⟩ := exists_descent_pathAt covers
    obtain ⟨place_starts, path_starts⟩ := descent.passes holds inOrder way start_lt lt_stop
    exact ⟨leaf, mem_sites.mpr descent.way, path_eq, place_starts, path_eq ▸ path_starts⟩

/-- Behind an empty slot and a node that ends before it, an offset is found in the arguments of a call. -/
theorem path_leads_into_arguments :
    let inner : SyntaxNode := .leaf .constRead ⟨5, 8⟩
    let args : SyntaxNode := ⟨.args, none, ⟨4, 9⟩, none, [some inner]⟩
    let call : SyntaxNode := ⟨.call, none, ⟨0, 9⟩, none, [none, some (.leaf .selfRef ⟨0, 4⟩), some args]⟩
    call.Everywhere HoldsChildren ∧ call.Everywhere ChildrenInOrder ∧
      (∃ leaf ∈ call.sites, leaf.path = call.pathAt 7 ∧ [2, 0] <+: leaf.place ∧
        [call, args, inner] <+: call.pathAt 7) ∧
      ∀ leaf ∈ call.leafAt? 7, ∀ t ∈ leaf.sites, t.place ≠ [] → ¬t.node.covers 7 := by
  intro inner args call
  have holds : call.Everywhere HoldsChildren := by decide
  have inOrder : call.Everywhere ChildrenInOrder := by decide
  obtain ⟨-, -, nested, passes⟩ := path_leads_inside call 7
  have mem : ⟨[2, 0], [call, args], inner⟩ ∈ call.sites :=
    mem_sites.mpr (.step rfl (.step rfl (.here inner)))
  exact ⟨holds, inOrder, passes holds inOrder _ mem (by decide) (by decide), (nested holds).2⟩

end SyntaxNode

end CodeAtlas
