import CodeAtlas.Syntax.Kind

/-!
# Syntax trees

A node has a kind, the byte range it covers, and slots for its children, which may be empty. It may
bear a name, with a byte range of its own. Nothing is promised about ranges: they may be inverted, lie
beyond the text, or lie outside the parent.
-/

namespace CodeAtlas

/-- A range of byte offsets, `stop` not included. -/
structure ByteRange where
  start : Nat
  stop : Nat
deriving DecidableEq

structure SyntaxNode where
  kind : SyntaxKind
  /-- The identifier that the node binds or refers to. -/
  name : Option String
  range : ByteRange
  ownNameRange : Option ByteRange
  /-- Places for children in source order. An optional part that is left out leaves its place
  empty. -/
  slots : List (Option SyntaxNode)
deriving BEq

namespace SyntaxNode

def leaf (kind : SyntaxKind) (range : ByteRange) : SyntaxNode :=
  ⟨kind, none, range, none, []⟩

def withName (n : SyntaxNode) (name : String) (nameRange : ByteRange) : SyntaxNode :=
  { n with name := some name, ownNameRange := some nameRange }

def withChildren (n : SyntaxNode) (children : List SyntaxNode) : SyntaxNode :=
  { n with slots := n.slots ++ children.map some }

def withSlot (n : SyntaxNode) (slot : Option SyntaxNode) : SyntaxNode :=
  { n with slots := n.slots ++ [slot] }

/-- The range of the identifier, or of the whole node if the identifier has none. -/
def nameRange (n : SyntaxNode) : ByteRange :=
  n.ownNameRange.getD n.range

def children (n : SyntaxNode) : List SyntaxNode :=
  n.slots.filterMap id

/-- Whether a cursor at an offset touches the node. A cursor right behind an identifier still selects
it, so the end is included. -/
def covers (n : SyntaxNode) (offset : Nat) : Bool :=
  n.range.start ≤ offset && offset ≤ n.range.stop

mutual

def count : SyntaxNode → Nat
  | ⟨_, _, _, _, slots⟩ => 1 + countSlots slots

def countSlots : List (Option SyntaxNode) → Nat
  | [] => 0
  | none :: rest => countSlots rest
  | some child :: rest => count child + countSlots rest

end

mutual

/-- The nodes that cover an offset below a node that does: the first child that covers it, and so on
down. -/
def pathBelow (offset : Nat) : SyntaxNode → List SyntaxNode
  | ⟨_, _, _, _, slots⟩ => pathInSlots offset slots

/-- The path that starts with the first node in the slots that covers an offset. -/
def pathInSlots (offset : Nat) : List (Option SyntaxNode) → List SyntaxNode
  | [] => []
  | none :: rest => pathInSlots offset rest
  | some child :: rest =>
      if child.covers offset then child :: pathBelow offset child
      else pathInSlots offset rest

end

/-- The nodes that cover an offset, from the root of the tree down to the innermost one. If two
siblings touch at the offset the earlier one is taken. -/
def pathAt (n : SyntaxNode) (offset : Nat) : List SyntaxNode :=
  if n.covers offset then n :: pathBelow offset n else []

def leafAt? (n : SyntaxNode) (offset : Nat) : Option SyntaxNode :=
  (n.pathAt offset).getLast?

end SyntaxNode

end CodeAtlas
