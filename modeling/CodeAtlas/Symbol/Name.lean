import CodeAtlas.Syntax.Node

/-!
# Names of symbols

A symbol is known by its fully qualified name. Namespaces and constants are joined by `::`, an instance
method is joined to its namespace by `#`, and a singleton method by `.`. Symbols outside of all
namespaces have their bare names.
-/

namespace CodeAtlas

inductive SymbolKind where
  | moduleKind
  | classKind
  | methodKind
  | constantKind
deriving DecidableEq

namespace SymbolKind

/-- The number by which clients know a kind of symbol. -/
def code : SymbolKind → Nat
  | .moduleKind => 2
  | .classKind => 5
  | .methodKind => 6
  | .constantKind => 14

end SymbolKind

def SyntaxKind.symbolKind? : SyntaxKind → Option SymbolKind
  | .moduleDef => some .moduleKind
  | .classDef => some .classKind
  | .methodDef => some .methodKind
  | .constWrite => some .constantKind
  | _ => none

/-- The name behind a leading `::`, which anchors a constant at the top level. -/
def anchored? (name : String) : Option String :=
  match name.toList with
  | ':' :: ':' :: rest => some (String.ofList rest)
  | _ => none

def qualify (owner : Option String) (name : String) : String :=
  match anchored? name, owner with
  | some absolute, _ => absolute
  | none, some outer => outer ++ "::" ++ name
  | none, none => name

def qualifyMethod (owner : Option String) (singleton : Bool) (name : String) : String :=
  match owner with
  | some outer => outer ++ (if singleton then "." else "#") ++ name
  | none => name

/-- Whether a method is defined on `self`, which then is its first child. -/
def SyntaxNode.definesOnSelf (n : SyntaxNode) : Bool :=
  match n.children with
  | first :: _ => first.kind == .selfRef
  | [] => false

end CodeAtlas
