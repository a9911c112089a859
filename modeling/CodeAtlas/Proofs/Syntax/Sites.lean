import CodeAtlas.Syntax.Node

/-!
# Where the nodes of a tree stand

Equal nodes can stand at several places of a tree. A site is a node together with the way that leads to it
from the root: the numbers of the slots that are taken, and the nodes that are passed. The sites of a tree
are listed in the order in which a walk enters them, and each is known by its slots alone. This is the order
of the slots that are taken: a site comes before those below it, and before those behind it.
-/

namespace CodeAtlas.SyntaxNode

/-- A node where it stands in a tree. -/
structure Site where
  /-- The numbers of the slots on the way from the root down to the node. -/
  place : List Nat
  /-- The ancestors of the node, the root first. -/
  around : List SyntaxNode
  node : SyntaxNode

/-- The nodes on the way to a site, from the root to the node itself. -/
def Site.path (t : Site) : List SyntaxNode :=
  t.around ++ [t.node]

mutual

/-- The sites of a tree that hangs at a place of a larger one, each before those below it. -/
def sitesAt (place : List Nat) (around : List SyntaxNode) : SyntaxNode → List Site
  | ⟨kind, name, range, ownNameRange, slots⟩ =>
      let n : SyntaxNode := ⟨kind, name, range, ownNameRange, slots⟩
      ⟨place, around, n⟩ :: sitesInSlots place (around ++ [n]) 0 slots

/-- The sites in the slots of a node at a place, the first of which has number `i`. -/
def sitesInSlots (place : List Nat) (around : List SyntaxNode) (i : Nat) :
    List (Option SyntaxNode) → List Site
  | [] => []
  | none :: rest => sitesInSlots place around (i + 1) rest
  | some child :: rest =>
      child.sitesAt (place ++ [i]) around ++ sitesInSlots place around (i + 1) rest

end

/-- All nodes of a tree, in the order of a walk. -/
def sites (root : SyntaxNode) : List Site :=
  root.sitesAt [] []

/-! ## Ways -/

/-- Some slots lead from a node down to another one, past the nodes `around`. -/
inductive Way : SyntaxNode → List Nat → List SyntaxNode → SyntaxNode → Prop
  | here (n : SyntaxNode) : Way n [] [] n
  | step {n child m : SyntaxNode} {i : Nat} {place : List Nat} {around : List SyntaxNode}
      (slot : n.slots[i]? = some (some child)) (way : Way child place around m) :
      Way n (i :: place) (n :: around) m

section Way

variable {n m m' : SyntaxNode} {place place' : List Nat} {around around' : List SyntaxNode}

theorem Way.trans (way : Way n place around m) (way' : Way m place' around' m') :
    Way n (place ++ place') (around ++ around') m' := by
  induction way with
  | here n => exact way'
  | step slot way ih => exact .step slot (ih way')

/-- The slots alone tell what they lead to. -/
theorem Way.unique (way : Way n place around m) (way' : Way n place around' m') :
    around = around' ∧ m = m' := by
  induction way generalizing around' with
  | here n =>
      cases way'
      exact ⟨rfl, rfl⟩
  | step slot way ih =>
      cases way' with
      | step slot' way' =>
          rw [slot] at slot'
          cases slot'
          obtain ⟨rfl, rfl⟩ := ih way'
          exact ⟨rfl, rfl⟩

theorem Way.length_eq (way : Way n place around m) : place.length = around.length := by
  induction way with
  | here n => rfl
  | step slot way ih => exact congrArg (· + 1) ih

/-- A node on a way divides it. -/
theorem Way.divide (way : Way n place around m) {before inside : List SyntaxNode} {s : SyntaxNode}
    (path_eq : around ++ [m] = before ++ s :: inside) : Way n (place.take before.length) before s ∧
      ∃ below, Way s (place.drop before.length) below m ∧ below ++ [m] = s :: inside := by
  induction way generalizing before with
  | here n =>
      cases before with
      | nil =>
          cases path_eq
          exact ⟨.here _, [], .here _, rfl⟩
      | cons p before => simp at path_eq
  | @step n child m i place around slot way ih =>
      cases before with
      | nil =>
          cases path_eq
          exact ⟨.here _, _ :: around, .step slot way, rfl⟩
      | cons p before =>
          obtain ⟨rfl, rest_eq⟩ := List.cons.inj path_eq
          obtain ⟨above, below⟩ := ih rest_eq
          exact ⟨.step slot above, below⟩

end Way

/-! ## Sites are ways -/

mutual

theorem mem_sitesAt {place : List Nat} {around : List SyntaxNode} {t : Site} : (n : SyntaxNode) →
    (t ∈ n.sitesAt place around ↔ ∃ place' around', t.place = place ++ place' ∧
      t.around = around ++ around' ∧ Way n place' around' t.node)
  | ⟨kind, name, range, ownNameRange, slots⟩ => by
      rw [sitesAt, List.mem_cons, mem_sitesInSlots slots 0]
      constructor
      · rintro (rfl | ⟨j, child, place', around', place_eq, around_eq, slot, way⟩)
        · exact ⟨[], [], by simp, by simp, .here _⟩
        · rw [Nat.zero_add] at place_eq
          exact ⟨j :: place', _ :: around', place_eq, by simpa using around_eq, .step slot way⟩
      · rintro ⟨place', around', place_eq, around_eq, way⟩
        obtain ⟨own_place, own_around, node⟩ := t
        cases way with
        | here =>
            rw [List.append_nil] at place_eq around_eq
            cases place_eq
            cases around_eq
            exact .inl rfl
        | @step _ child _ j place' around' slot way =>
            refine .inr ⟨j, child, place', around', ?_, ?_, slot, way⟩
            · rw [Nat.zero_add, place_eq]
            · simpa using around_eq

theorem mem_sitesInSlots {place : List Nat} {around : List SyntaxNode} {t : Site} :
    (slots : List (Option SyntaxNode)) → (i : Nat) → (t ∈ sitesInSlots place around i slots ↔
      ∃ j child place' around', t.place = place ++ (i + j) :: place' ∧ t.around = around ++ around' ∧
        slots[j]? = some (some child) ∧ Way child place' around' t.node)
  | [], i => by simp [sitesInSlots]
  | none :: rest, i => by
      rw [sitesInSlots, mem_sitesInSlots rest (i + 1)]
      constructor
      · rintro ⟨j, child, place', around', place_eq, around_eq, slot, way⟩
        exact ⟨j + 1, child, place', around', by rw [place_eq, Nat.add_assoc, Nat.add_comm 1],
          around_eq, slot, way⟩
      · rintro ⟨_ | j, child, place', around', place_eq, around_eq, slot, way⟩
        · cases slot
        · exact ⟨j, child, place', around', by rw [place_eq, Nat.add_assoc, Nat.add_comm 1],
            around_eq, slot, way⟩
  | some child :: rest, i => by
      rw [sitesInSlots, List.mem_append, mem_sitesAt child, mem_sitesInSlots rest (i + 1)]
      constructor
      · rintro (⟨place', around', place_eq, around_eq, way⟩ |
          ⟨j, other, place', around', place_eq, around_eq, slot, way⟩)
        · exact ⟨0, child, place', around', by simpa using place_eq, around_eq, rfl, way⟩
        · exact ⟨j + 1, other, place', around', by rw [place_eq, Nat.add_assoc, Nat.add_comm 1],
            around_eq, slot, way⟩
      · rintro ⟨_ | j, other, place', around', place_eq, around_eq, slot, way⟩
        · cases slot
          exact .inl ⟨place', around', by simpa using place_eq, around_eq, way⟩
        · exact .inr ⟨j, other, place', around', by rw [place_eq, Nat.add_assoc, Nat.add_comm 1],
            around_eq, slot, way⟩

end

/-- The sites of a tree are all the ways down from its root. -/
theorem mem_sites {root : SyntaxNode} {t : Site} : t ∈ root.sites ↔ Way root t.place t.around t.node := by
  rw [sites, mem_sitesAt]
  simp

/-! ## The order of sites -/

/-- A site is entered before another one: the other is below it, or the ways to them part and the way to the
other one takes a later slot. -/
def Site.Precedes (t t' : Site) : Prop :=
  List.Lex (· < ·) t.place t'.place

theorem lex_append {place : List Nat} {way way' : List Nat} (lt : List.Lex (· < ·) way way') :
    List.Lex (· < ·) (place ++ way) (place ++ way') := by
  induction place with
  | nil => exact lt
  | cons i place ih => exact .cons ih

mutual

theorem pairwise_sitesAt (place : List Nat) (around : List SyntaxNode) : (n : SyntaxNode) →
    (n.sitesAt place around).Pairwise Site.Precedes
  | ⟨kind, name, range, ownNameRange, slots⟩ => by
      rw [sitesAt, List.pairwise_cons]
      refine ⟨fun t mem => ?_, pairwise_sitesInSlots place _ slots 0⟩
      obtain ⟨j, child, way, around', place_eq, -⟩ := (mem_sitesInSlots slots 0).mp mem
      have below : List.Lex (· < ·) (place ++ []) (place ++ (0 + j) :: way) := lex_append .nil
      rwa [List.append_nil, ← place_eq] at below

theorem pairwise_sitesInSlots (place : List Nat) (around : List SyntaxNode) :
    (slots : List (Option SyntaxNode)) → (i : Nat) →
      (sitesInSlots place around i slots).Pairwise Site.Precedes
  | [], i => by
      rw [sitesInSlots]
      exact .nil
  | none :: rest, i => by
      rw [sitesInSlots]
      exact pairwise_sitesInSlots place around rest (i + 1)
  | some child :: rest, i => by
      rw [sitesInSlots, List.pairwise_append]
      refine ⟨pairwise_sitesAt (place ++ [i]) around child,
        pairwise_sitesInSlots place around rest (i + 1), fun t mem t' mem' => ?_⟩
      obtain ⟨way, around', place_eq, -⟩ := (mem_sitesAt child).mp mem
      obtain ⟨j, other, way', around'', place_eq', -⟩ := (mem_sitesInSlots rest (i + 1)).mp mem'
      rw [Site.Precedes, place_eq, place_eq', List.append_assoc, List.singleton_append]
      exact lex_append (.rel (by omega))

end

theorem pairwise_sites (root : SyntaxNode) : root.sites.Pairwise Site.Precedes :=
  pairwise_sitesAt [] [] root

/-! ## The sites around a child -/

/-- The sites in some slots are those before a child, those of the child, and those behind it. -/
theorem sitesInSlots_divide {slots : List (Option SyntaxNode)} {i : Nat} {child : SyntaxNode}
    (slot : slots[i]? = some (some child)) (place : List Nat) (around : List SyntaxNode) (k : Nat) :
    sitesInSlots place around k slots = sitesInSlots place around k (slots.take i) ++
      (child.sitesAt (place ++ [k + i]) around ++
        sitesInSlots place around (k + i + 1) (slots.drop (i + 1))) := by
  induction slots generalizing i k with
  | nil => cases slot
  | cons head rest ih =>
      cases i with
      | zero =>
          cases slot
          rfl
      | succ i =>
          have divided := ih slot (k + 1)
          rw [Nat.add_assoc k 1 i, Nat.add_comm 1 i] at divided
          cases head with
          | none =>
              rw [sitesInSlots, divided]
              rfl
          | some other =>
              rw [sitesInSlots, divided, ← List.append_assoc]
              rfl

/-! ## The nearest ancestor -/

/-- The innermost of some ancestors, the root first, that is of a wanted kind. -/
def nearest? (wanted : SyntaxKind → Bool) (around : List SyntaxNode) : Option SyntaxNode :=
  around.reverse.find? fun n => wanted n.kind

theorem nearest?_concat (wanted : SyntaxKind → Bool) (around : List SyntaxNode) (n : SyntaxNode) :
    nearest? wanted (around ++ [n]) = if wanted n.kind then some n else nearest? wanted around := by
  rw [nearest?, List.reverse_append, List.reverse_singleton, List.singleton_append, List.find?_cons]
  cases wanted n.kind with
  | true => rfl
  | false => rfl

end CodeAtlas.SyntaxNode
