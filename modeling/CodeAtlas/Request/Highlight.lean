import CodeAtlas.Occurrence
import CodeAtlas.Walk
import CodeAtlas.Workspace

/-!
# Highlights

All places in a document that stand for the symbol at a position. A local variable is known in the
nearest definition around it only, and not in the definitions nested in that.
-/

namespace CodeAtlas

structure Highlight where
  range : PositionRange
  use : Occurrence
deriving DecidableEq

namespace Highlight

/-- The kinds of nodes, below the root of a file, in which local variables start afresh. -/
def localScopeKinds : List SyntaxKind :=
  [.methodDef, .classDef, .moduleDef, .singletonClass]

def opensLocals (kind : SyntaxKind) : Bool :=
  kind == .program || localScopeKinds.contains kind

/-- The occurrences found so far, latest first, and how many nodes in which local variables start
afresh are open around the current place. -/
structure Search where
  nesting : Nat
  found : List (ByteRange × Occurrence)
deriving DecidableEq

def Search.record (s : Search) (symbol : Identity) (writes : Bool) (n : SyntaxNode) : Search :=
  match n.occurrenceOf? symbol with
  | none => s
  | some .write => if writes then { s with found := (n.nameRange, .write) :: s.found } else s
  | some .read => { s with found := (n.nameRange, .read) :: s.found }

/-- What an event means for the search for a symbol. A local variable is known where only the innermost
of the nodes in which local variables start afresh is open. -/
def handle (symbol : Identity) (writes : Bool) (s : Search) (event : Event) (n : SyntaxNode) :
    Search :=
  match event with
  | .enter kind =>
      let s := if symbol.isLocal && opensLocals kind then { s with nesting := s.nesting + 1 } else s
      if 1 < s.nesting then s else s.record symbol writes n
  | .exit kind =>
      if symbol.isLocal && opensLocals kind then { s with nesting := s.nesting - 1 } else s
  | .anyNode => s

/-- The listener that finds a symbol. It counts nodes only for a local variable. -/
def listener (symbol : Identity) (writes : Bool) : Listener Search where
  subscriptions :=
    SyntaxKind.matchable.map Event.enter ++
      if symbol.isLocal then localScopeKinds.flatMap fun kind => [.enter kind, .exit kind] else []
  handle := handle symbol writes

/-- The node that knows the local variables at the end of a path: the innermost one in which they
start afresh, or the root. -/
def localScope (root : SyntaxNode) (path : List SyntaxNode) : SyntaxNode :=
  (path.reverse.find? fun n => opensLocals n.kind).getD root

/-- The node that a search for a symbol starts from, if the symbol is named at the end of a path. -/
def scope (symbol : Identity) (root : SyntaxNode) (path : List SyntaxNode) : SyntaxNode :=
  if symbol.isLocal then localScope root path else root

/-- The state in which a search starts. A scope that will not be counted when it is entered is counted
beforehand. -/
def Search.start (scope : SyntaxNode) : Search :=
  ⟨if localScopeKinds.contains scope.kind then 0 else 1, []⟩

/-- The occurrences of the symbol named at the end of a path, in the order of the walk. -/
def occurrencesAlong (root : SyntaxNode) (writes : Bool) (path : List SyntaxNode) :
    Option (List (ByteRange × Occurrence)) := do
  let target ← path.getLast?
  let symbol ← target.identity?
  let scope := scope symbol root path
  some ((listener symbol writes).run (.start scope) scope).found.reverse

def occurrences (root : SyntaxNode) (writes : Bool) (offset : Nat) :
    Option (List (ByteRange × Occurrence)) :=
  occurrencesAlong root writes (root.pathAt offset)

def answer (w : Workspace) (path : String) (p : Position) : Option (List Highlight) := do
  let s ← w.source? path
  let found ← occurrences s.root w.settings.highlightsWrites (w.toOffset s p)
  if found.isEmpty then none
  else some (found.map fun (range, use) => ⟨w.toPositionRange s range, use⟩)

end Highlight

end CodeAtlas
