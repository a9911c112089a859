import CodeAtlas.Walk
import CodeAtlas.Workspace

/-!
# Definitions of symbols

Constants and calls are resolved by name. Candidates for the full name are tried from the innermost
namespace around the place outwards, and the first one that is defined anywhere counts.
-/

namespace CodeAtlas.Definition

/-- Where a reference stands. -/
structure Place where
  /-- The namespaces around it, innermost first. -/
  namespaces : List String
  /-- Whether `self` is a class there, and not an instance. -/
  singleton : Bool

def Place.below (ancestors : List SyntaxNode) : Place :=
  let scopes := ScopeStack.enclosing ancestors
  let method := ancestors.reverse.find? fun n => n.kind == .methodDef
  ⟨scopes.namespaces, scopes.singleton || (method.map SyntaxNode.definesOnSelf).getD false⟩

/-- The definitions of the first of several names that is defined. -/
def firstDefined (index : WorkspaceIndex) : List String → List SymbolEntry
  | [] => []
  | name :: rest =>
      match index.resolve name with
      | [] => firstDefined index rest
      | entries => entries

def constantCandidates (place : Place) (name : String) : List String :=
  match anchored? name with
  | some absolute => [absolute]
  | none => place.namespaces.map (fun ns => qualify (some ns) name) ++ [name]

def resolveConstant (index : WorkspaceIndex) (place : Place) (name : String) : Option String :=
  (firstDefined index (constantCandidates place name)).head?.map SymbolEntry.name

def methodCandidates (place : Place) (name : String) : List String :=
  (place.namespaces.flatMap fun ns =>
    [qualifyMethod (some ns) place.singleton name, qualifyMethod (some ns) (!place.singleton) name])
    ++ [name]

/-- The receiver of a call, which stands before its arguments. -/
def receiver? (call : SyntaxNode) : Option SyntaxNode :=
  call.children.head?.filter fun first => first.kind ≠ .args && first.kind ≠ .block

/-- The definitions of the method that a node calls. The class of a receiver is known only if it is
`self` or a constant. -/
def resolveCall (index : WorkspaceIndex) (place : Place) (call : SyntaxNode) : List SymbolEntry :=
  match call.name with
  | none => []
  | some name =>
      match receiver? call with
      | none => firstDefined index (methodCandidates place name)
      | some receiver =>
          match receiver.kind with
          | .selfRef => firstDefined index (methodCandidates place name)
          | .constRead =>
              match receiver.name.bind (resolveConstant index place) with
              | none => []
              | some owner => index.resolve (qualifyMethod (some owner) true name)
          | _ => []

/-- What being told of a target means for the definitions found. -/
def handle (index : WorkspaceIndex) (place : Place) (found : List SymbolEntry) (event : Event)
    (n : SyntaxNode) : List SymbolEntry :=
  match event with
  | .enter .constRead =>
      found ++ ((n.name.bind (resolveConstant index place)).map index.resolve).getD []
  | .enter .call => found ++ resolveCall index place n
  | _ => found

def listener (index : WorkspaceIndex) (place : Place) : Listener (List SymbolEntry) where
  subscriptions := [.enter .constRead, .enter .call]
  handle := handle index place

def entries (index : WorkspaceIndex) (path : List SyntaxNode) : List SymbolEntry :=
  match path.getLast? with
  | none => []
  | some target => (listener index (.below path.dropLast)).runForTarget [] target

def answer (w : Workspace) (path : String) (p : Position) : Option (List Location) := do
  let s ← w.source? path
  let found := entries w.index (s.root.pathAt (w.toOffset s p))
  let locations := found.filterMap fun entry => w.locate? entry.path entry.range
  if locations.isEmpty then none else some locations

end CodeAtlas.Definition
