import CodeAtlas.Repeats
import CodeAtlas.Walk
import CodeAtlas.Workspace

/-!
# Selection ranges

The ranges around a cursor that a user may want to select, each within the next larger one.
-/

namespace CodeAtlas

/-- A range to select, with the larger ranges around it. -/
inductive SelectionRange where
  | mk (range : PositionRange) (parent : Option SelectionRange)

namespace SelectionRange

def toList : SelectionRange → List PositionRange
  | ⟨range, none⟩ => [range]
  | ⟨range, some parent⟩ => range :: parent.toList

end SelectionRange

namespace Selection

/-- The listener that collects the ranges around a cursor, innermost first. A node that touches the
cursor but does not lie within the last range collected is passed over. -/
def listener (cursor : Nat) : Listener (List ByteRange) where
  subscriptions := [.anyNode]
  handle := fun found _ n =>
    if n.covers cursor then
      match found with
      | [] => [n.range]
      | outer :: rest =>
          if outer.start ≤ n.range.start ∧ n.range.stop ≤ outer.stop then
            n.range :: outer :: rest
          else outer :: rest
    else found

/-- The ranges in a tree around a cursor, outermost first. -/
def ranges (root : SyntaxNode) (cursor : Nat) : List ByteRange :=
  ((listener cursor).run [] root).reverse

/-- Chains ranges given from the outermost to the innermost. -/
def chain (ranges : List PositionRange) : Option SelectionRange :=
  ranges.foldl (fun parent range => some ⟨range, parent⟩) none

/-- The ranges to select around a position. Ranges that are the same for the client are listed once,
and where there is none the position itself is selected. -/
def around (w : Workspace) (s : Source) (p : Position) : SelectionRange :=
  let found := (ranges s.root (w.toOffset s p)).map (w.toPositionRange s)
  (chain (withoutRepeats found)).getD ⟨⟨p, p⟩, none⟩

def answer (w : Workspace) (path : String) (positions : List Position) :
    Option (List SelectionRange) :=
  (w.source? path).map fun s => positions.map (around w s)

end Selection

end CodeAtlas
