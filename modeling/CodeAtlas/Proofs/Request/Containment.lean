import CodeAtlas.Proofs.Position.Monotone
import CodeAtlas.Proofs.Request.Outline
import CodeAtlas.Proofs.Syntax.Paths
import CodeAtlas.Proofs.Workspace
import CodeAtlas.Request

/-!
# Outlines are contained

The items inside an item of an outline are listed for nodes below its node, however many nodes that are not
listed stand between them. So they lie within it if no node reaches over its parent, also for clients, and
its name lies within it as well. The exception is a text with more lines than clients can count.
-/

namespace CodeAtlas

open SyntaxNode (Everywhere HoldsChildren Site Way outlineInSlots)

/-- The name of a node lies within it. -/
def SyntaxNode.HoldsName (n : SyntaxNode) : Prop :=
  n.nameRange.Within n.range

instance : DecidablePred SyntaxNode.HoldsName := fun n =>
  inferInstanceAs (Decidable (n.nameRange.Within n.range))

namespace Outline

variable {place : ByteRange → PositionRange} {item : OutlineItem} {n : SyntaxNode}

/-! ## The nodes of items -/

/-- An item is listed for a node, and the items inside it for nodes below that. -/
structure StandsFor (place : ByteRange → PositionRange) (n : SyntaxNode) (item : OutlineItem) : Prop where
  range : item.range = place n.range
  selectionRange : item.selectionRange = place n.nameRange
  children : ∀ child ∈ item.children, ∃ t ∈ n.sites, child.range = place t.node.range

theorem mem_preorder_self (item : OutlineItem) : item ∈ item.preorder := by
  obtain ⟨name, kind, range, selectionRange, children⟩ := item
  rw [OutlineItem.preorder]
  exact List.mem_cons_self

theorem mem_preorder_of_mem {items : List OutlineItem} (mem : item ∈ items) : item ∈ preorder items := by
  induction items with
  | nil => cases mem
  | cons first rest ih =>
      rw [preorder, List.mem_append]
      rcases List.mem_cons.mp mem with rfl | mem
      · exact .inl (mem_preorder_self item)
      · exact .inr (ih mem)

/-- An item to which a node and those below it lead is one of those below, or the one of the node, which holds
no others than those. -/
theorem mem_preorder_listedWith {singleton : Bool} {below : List OutlineItem}
    (mem : item ∈ preorder (n.listedWith place singleton below)) : item ∈ preorder below ∨
      (item.range = place n.range ∧ item.selectionRange = place n.nameRange ∧
        ∀ child ∈ item.children, child ∈ below) := by
  rw [SyntaxNode.listedWith] at mem
  split at mem
  · exact .inl mem
  split at mem
  · rw [preorder, OutlineItem.preorder, preorder, List.mem_append, List.mem_singleton] at mem
    rcases mem with rfl | mem
    · exact .inr ⟨rfl, rfl, List.forall_mem_nil _⟩
    · exact .inl mem
  · rw [preorder, OutlineItem.preorder, preorder, List.append_nil, List.mem_cons] at mem
    rcases mem with rfl | mem
    · exact .inr ⟨rfl, rfl, fun child mem => mem⟩
    · exact .inl mem

-- By induction on the tree. Between an item and one inside it any number of nodes can stand, so what is
-- found below a node is a way down and not one step.
mutual

theorem exists_node_of_mem_outlineIn : (n : SyntaxNode) → (singleton : Bool) →
    {item : OutlineItem} → item ∈ preorder (n.outlineIn place singleton) →
      ∃ t ∈ n.sites, StandsFor place t.node item
  | ⟨kind, name, range, ownNameRange, slots⟩, singleton, item, mem => by
      let n : SyntaxNode := ⟨kind, name, range, ownNameRange, slots⟩
      have below {inner : OutlineItem} {singleton' : Bool}
          (mem : inner ∈ preorder (outlineInSlots place singleton' slots)) :
          ∃ t ∈ n.sites, StandsFor place t.node inner := by
        obtain ⟨i, child, t, slot, mem, stands⟩ := exists_node_of_mem_outlineInSlots slots singleton' mem
        have way : Way n (i :: t.place) (n :: t.around) t.node := .step slot (SyntaxNode.mem_sites.mp mem)
        exact ⟨⟨i :: t.place, n :: t.around, t.node⟩, SyntaxNode.mem_sites.mpr way, stands⟩
      rw [SyntaxNode.outlineIn] at mem
      rcases mem_preorder_listedWith mem with mem | ⟨range_eq, selectionRange_eq, children⟩
      · exact below mem
      · refine ⟨⟨[], [], n⟩, SyntaxNode.mem_sites.mpr (.here n), range_eq, selectionRange_eq, ?_⟩
        intro child mem
        obtain ⟨t, mem, stands⟩ := below (mem_preorder_of_mem (children child mem))
        exact ⟨t, mem, stands.range⟩

theorem exists_node_of_mem_outlineInSlots : (slots : List (Option SyntaxNode)) → (singleton : Bool) →
    {item : OutlineItem} → item ∈ preorder (outlineInSlots place singleton slots) →
      ∃ (i : Nat) (child : SyntaxNode) (t : Site), slots[i]? = some (some child) ∧ t ∈ child.sites ∧
        StandsFor place t.node item
  | [], singleton, item, mem => by cases mem
  | none :: rest, singleton, item, mem => by
      rw [outlineInSlots] at mem
      obtain ⟨i, child, t, slot, stands⟩ := exists_node_of_mem_outlineInSlots rest singleton mem
      exact ⟨i + 1, child, t, slot, stands⟩
  | some child :: rest, singleton, item, mem => by
      rw [outlineInSlots, preorder_append, List.mem_append] at mem
      rcases mem with mem | mem
      · obtain ⟨t, stands⟩ := exists_node_of_mem_outlineIn child singleton mem
        exact ⟨0, child, t, rfl, stands⟩
      · obtain ⟨i, other, t, slot, stands⟩ := exists_node_of_mem_outlineInSlots rest singleton mem
        exact ⟨i + 1, other, t, slot, stands⟩

end

/-! ## What clients see -/

/-- The name of each item lies within it, and so do the items inside it, at every depth. -/
def Contained (items : List OutlineItem) : Prop :=
  ∀ item ∈ preorder items, item.selectionRange.Within item.range ∧
    ∀ child ∈ item.children, child.range.Within item.range

/-- The text has one line more than clients can count, and ends between the starts, or between the ends, of
two ranges. -/
def Miscounted (s : Source) (inner outer : ByteRange) : Prop :=
  s.WrapsBetween outer.start inner.start ∨ s.WrapsBetween inner.stop outer.stop

/-- An item is listed for a node and contains its name and the items inside it, which are listed for nodes
below that, but where lines are miscounted between the two. -/
structure HoldsInside (s : Source) (encoding : PositionEncoding) (n : SyntaxNode) (item : OutlineItem) :
    Prop where
  range : item.range = s.toPositionRange encoding n.range
  selectionRange : item.selectionRange = s.toPositionRange encoding n.nameRange
  name : item.selectionRange.Within item.range ↔ ¬Miscounted s n.nameRange n.range
  children : ∀ child ∈ item.children, ∃ t ∈ n.sites,
    child.range = s.toPositionRange encoding t.node.range ∧
      (child.range.Within item.range ↔ ¬Miscounted s t.node.range n.range)

section Contained

variable {s : Source} {encoding : PositionEncoding}

theorem not_miscounted (lines : s.lineCount < UInt32.size) (inner outer : ByteRange) :
    ¬Miscounted s inner outer := by
  rintro (⟨count, -⟩ | ⟨count, -⟩)
  · exact absurd count (Nat.ne_of_lt lines)
  · exact absurd count (Nat.ne_of_lt lines)

theorem within_toPositionRange_iff (bytes : s.byteLength < UInt32.size) {inner outer : ByteRange}
    (within : inner.Within outer) :
    (s.toPositionRange encoding inner).Within (s.toPositionRange encoding outer) ↔
      ¬Miscounted s inner outer := by
  rw [Miscounted, not_or]
  exact and_congr (Source.toPosition_le_iff bytes encoding within.1)
    (Source.toPosition_le_iff bytes encoding within.2)

theorem exists_holdsInside (bytes : s.byteLength < UInt32.size) (holds : s.root.Everywhere HoldsChildren)
    (names : s.root.Everywhere SyntaxNode.HoldsName)
    (mem : item ∈ preorder (items (s.toPositionRange encoding) s.root)) :
    ∃ t ∈ s.root.sites, HoldsInside s encoding t.node item := by
  rw [items_eq] at mem
  obtain ⟨t, t_mem, stands⟩ := exists_node_of_mem_outlineIn s.root false mem
  refine ⟨t, t_mem, stands.range, stands.selectionRange, ?_, fun child mem => ?_⟩
  · rw [stands.range, stands.selectionRange]
    exact within_toPositionRange_iff bytes (names t t_mem)
  · obtain ⟨below, below_mem, range_eq⟩ := stands.children child mem
    have holds : t.node.Everywhere HoldsChildren := holds.of_way (SyntaxNode.mem_sites.mp t_mem)
    have inside : below.node.range.Within t.node.range :=
      SyntaxNode.within_of_way holds (SyntaxNode.mem_sites.mp below_mem)
    refine ⟨below, below_mem, range_eq, ?_⟩
    rw [stands.range, range_eq]
    exact within_toPositionRange_iff bytes inside

theorem contained_of_holdsInside {items : List OutlineItem}
    (inside : ∀ item ∈ preorder items, ∃ t ∈ s.root.sites, HoldsInside s encoding t.node item)
    (lines : s.lineCount < UInt32.size) : Contained items := by
  intro item mem
  obtain ⟨t, -, inside⟩ := inside item mem
  refine ⟨inside.name.mpr (not_miscounted lines _ _), fun child mem => ?_⟩
  obtain ⟨below, -, -, within_iff⟩ := inside.children child mem
  exact within_iff.mpr (not_miscounted lines _ _)

end Contained

/-- Where no node reaches over its parent and no name over its node, each item of an outline contains its name
and the items inside it, but where lines are miscounted between the two. -/
theorem outline_contained {w : Workspace} {path : String} {s : Source} (loaded : w.source? path = some s)
    (bytes : s.byteLength < UInt32.size) (holds : s.root.Everywhere HoldsChildren)
    (names : s.root.Everywhere SyntaxNode.HoldsName) :
    ∃ items, w.query (.outline path) = .outline (some items) ∧
      (s.lineCount < UInt32.size → Contained items) ∧
      ∀ item ∈ preorder items, ∃ t ∈ s.root.sites,
        HoldsInside s w.settings.positionEncoding t.node item := by
  have inside : ∀ item ∈ preorder (items (w.toPositionRange s) s.root), ∃ t ∈ s.root.sites,
      HoldsInside s w.settings.positionEncoding t.node item :=
    fun item mem => exists_holdsInside bytes holds names mem
  refine ⟨items (w.toPositionRange s) s.root, ?_, contained_of_holdsInside inside, inside⟩
  rw [Workspace.query, answer, loaded]
  rfl

/-- A method in the body of a singleton class, which is not listed, is contained in the class around that. -/
theorem outline_contained_singleton :
    let method : SyntaxNode := ⟨.methodDef, some "f", ⟨24, 34⟩, some ⟨28, 29⟩, []⟩
    let body : SyntaxNode := ⟨.singletonClass, none, ⟨9, 39⟩, none, [some method]⟩
    let root : SyntaxNode := ⟨.classDef, some "A", ⟨0, 44⟩, some ⟨6, 7⟩, [none, some body]⟩
    let s := Source.new "a.rb" "class A; class << self; def f; end; end; end" root
    let w := (Workspace.empty .default).changes [.index s]
    w.source? "a.rb" = some s ∧ s.byteLength < UInt32.size ∧ root.Everywhere HoldsChildren ∧
      root.Everywhere SyntaxNode.HoldsName ∧
      ∃ items, w.query (.outline "a.rb") = .outline (some items) ∧ Contained items := by
  intro method body root s w
  have loaded : w.source? "a.rb" = some s := Workspace.source?_changes_index .default s
  have bytes : s.byteLength < UInt32.size := by decide
  have holds : root.Everywhere HoldsChildren := by decide
  have names : root.Everywhere SyntaxNode.HoldsName := by decide
  obtain ⟨items, answered, contained, -⟩ := outline_contained loaded bytes holds names
  exact ⟨loaded, bytes, holds, names, items, answered, contained (by decide)⟩

/-- A class inside another one that contains it is seen in it. -/
theorem within_of_contained {outer inner : ByteRange} (contained : Contained (items place
    ⟨.classDef, some "A", outer, none, [some ⟨.classDef, some "B", inner, none, []⟩]⟩)) :
    (place inner).Within (place outer) := by
  let item (name : String) (r : ByteRange) (children : List OutlineItem) : OutlineItem :=
    ⟨name, .classKind, place r, place r, children⟩
  have listed : items place ⟨.classDef, some "A", outer, none,
      [some ⟨.classDef, some "B", inner, none, []⟩]⟩ = [item "A" outer [item "B" inner []]] :=
    items_eq _ _
  rw [listed] at contained
  obtain ⟨-, inside⟩ := contained _ (mem_preorder_of_mem (List.mem_singleton_self _))
  exact inside _ (List.mem_singleton_self _)

/-- A class around another one, in a text of as many line feeds as fit 32 bits. -/
def classesInLineFeeds (outer inner : ByteRange) : Source :=
  .ofLineFeeds "a.rb" ⟨.classDef, some "A", outer, none, [some ⟨.classDef, some "B", inner, none, []⟩]⟩
    4294967295

/-- No node reaches over its parent and no name over its node, but clients see an item that does not contain
what it should. -/
def Escapes (s : Source) : Prop :=
  s.byteLength < UInt32.size ∧ s.root.Everywhere HoldsChildren ∧ s.root.Everywhere SyntaxNode.HoldsName ∧
    ∃ items, ((Workspace.empty .default).changes [.index s]).query (.outline s.path) = .outline (some items) ∧
      ¬Contained items

section LineFeeds

variable {outer inner : ByteRange}

theorem byteLength_classesInLineFeeds : (classesInLineFeeds outer inner).byteLength = 4294967295 :=
  Source.byteLength_ofLineFeeds _ _ _

theorem wraps_classesInLineFeeds {first second : Nat} (pos : 0 < first) (inside : first ≤ 4294967295)
    (past : 4294967295 < second) : (classesInLineFeeds outer inner).WrapsBetween first second := by
  refine ⟨Source.lineCount_ofLineFeeds _ _ _, pos, ?_, ?_⟩
  · rwa [byteLength_classesInLineFeeds]
  · rwa [byteLength_classesInLineFeeds]

theorem escapes_of_miscounted (holds : (classesInLineFeeds outer inner).root.Everywhere HoldsChildren)
    (names : (classesInLineFeeds outer inner).root.Everywhere SyntaxNode.HoldsName)
    (within : inner.Within outer) (miscounted : Miscounted (classesInLineFeeds outer inner) inner outer) :
    Escapes (classesInLineFeeds outer inner) := by
  let s := classesInLineFeeds outer inner
  let w := (Workspace.empty .default).changes [.index s]
  have loaded : w.source? s.path = some s := Workspace.source?_changes_index .default s
  have bytes : s.byteLength < UInt32.size := by
    rw [byteLength_classesInLineFeeds]
    decide
  refine ⟨bytes, holds, names, items (w.toPositionRange s) s.root, ?_, fun contained => ?_⟩
  · rw [Workspace.query, answer, loaded]
    rfl
  · exact (within_toPositionRange_iff bytes within).mp (within_of_contained contained) miscounted

/-- In a text of as many line feeds as fit 32 bits, a class that ends behind the text seems to end in the
first line, before the class inside it. In a tree that ends with the text, an inverted class inside it that
begins behind the text seems to begin in the first line, before the class around it. -/
theorem class_escapes_line_feeds :
    Escapes (classesInLineFeeds ⟨0, 4294967296⟩ ⟨0, 5⟩) ∧
      Escapes (classesInLineFeeds ⟨1, 4294967295⟩ ⟨4294967296, 5⟩) ∧
      (classesInLineFeeds ⟨1, 4294967295⟩ ⟨4294967296, 5⟩).root.range.stop ≤
        (classesInLineFeeds ⟨1, 4294967295⟩ ⟨4294967296, 5⟩).byteLength := by
  refine ⟨?_, ?_, byteLength_classesInLineFeeds.ge⟩
  · exact escapes_of_miscounted (by decide) (by decide) (by decide)
      (.inr (wraps_classesInLineFeeds (by decide) (by decide) (by decide)))
  · exact escapes_of_miscounted (by decide) (by decide) (by decide)
      (.inl (wraps_classesInLineFeeds (by decide) (by decide) (by decide)))

end LineFeeds

end Outline

end CodeAtlas
