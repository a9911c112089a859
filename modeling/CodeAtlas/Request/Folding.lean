import CodeAtlas.Walk
import CodeAtlas.Workspace

/-!
# Folding ranges

The parts of a document that can be folded: definitions, branches, loops, collections and calls that
span several lines. A call that ends in a block folds at the block.
-/

namespace CodeAtlas

/-- A range of lines that can be folded. Characters are left out for clients that fold whole lines
only. -/
structure FoldingRange where
  startLine : UInt32
  startCharacter : Option UInt32
  endLine : UInt32
  endCharacter : Option UInt32
  collapsedText : Option String
deriving DecidableEq

namespace Folding

/-- The kinds of nodes that fold if they span several lines. -/
def foldable : List SyntaxKind :=
  [.moduleDef, .classDef, .singletonClass, .methodDef, .block, .lambda, .ifBranch, .unlessBranch,
    .caseBranch, .whileLoop, .untilLoop, .forLoop, .beginBlock, .array, .hash, .call]

def endsInBlock (n : SyntaxNode) : Bool :=
  n.kind == .call && (n.children.getLast?.map fun last => last.kind == .block).getD false

/-- The folding range of a node, if it has one of its own. -/
def ofNode? (place : ByteRange → PositionRange) (linesOnly : Bool) (n : SyntaxNode) :
    Option FoldingRange :=
  let range := place n.range
  let character (c : UInt32) := if linesOnly then none else some c
  if endsInBlock n || range.stop.line ≤ range.start.line then none
  else
    some ⟨range.start.line, character range.start.character, range.stop.line,
      character range.stop.character, n.name⟩

/-- The listener that finds folding ranges, latest first. -/
def listener (place : ByteRange → PositionRange) (linesOnly : Bool) : Listener (List FoldingRange) where
  subscriptions := foldable.map Event.enter
  handle := fun found _ n => (ofNode? place linesOnly n).toList ++ found

def ranges (place : ByteRange → PositionRange) (linesOnly : Bool) (root : SyntaxNode) :
    List FoldingRange :=
  ((listener place linesOnly).run [] root).reverse

def answer (w : Workspace) (path : String) : Option (List FoldingRange) :=
  (w.source? path).map fun s =>
    ranges (w.toPositionRange s) w.settings.lineFoldingOnly s.root

end Folding

end CodeAtlas
