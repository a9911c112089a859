import CodeAtlas.Symbol.Scope
import CodeAtlas.Syntax.Record
import CodeAtlas.Walk

/-!
# Collecting definitions

One walk over the tree of a file finds the definitions in it: namespaces, methods and constants that
have a name.
-/

namespace CodeAtlas

/-- A symbol as it is defined at one place. -/
structure SymbolEntry where
  name : String
  kind : SymbolKind
  path : String
  range : ByteRange
  nameRange : ByteRange
  /-- The full name of the namespace around the definition. -/
  container : Option String
deriving DecidableEq

namespace SymbolEntry

def toValue (e : SymbolEntry) : Json.Value :=
  .object [("name", .text e.name), ("kind", .nat e.kind.code), ("path", .text e.path),
    ("range", e.range.toValue), ("nameRange", e.nameRange.toValue),
    ("container", .orNull .text e.container)]

end SymbolEntry

/-- The definitions found so far, latest first, and the scopes around the current place. -/
structure Collector where
  scopes : ScopeStack
  found : List SymbolEntry
deriving DecidableEq

namespace Collector

def start : Collector :=
  ⟨.empty, []⟩

def record (c : Collector) (path : String) (n : SyntaxNode) (name : String)
    (container : Option String) : Collector :=
  match n.kind.symbolKind? with
  | none => c
  | some kind =>
      { c with found := ⟨name, kind, path, n.range, n.nameRange, container⟩ :: c.found }

def handle (path : String) (c : Collector) (event : Event) (n : SyntaxNode) : Collector :=
  let container := c.scopes.owner
  match event with
  | .enter .moduleDef | .enter .classDef =>
      let (name, scopes) := c.scopes.enter n
      let c := { c with scopes }
      match name with
      | none => c
      | some name => c.record path n name container
  | .enter .singletonClass => { c with scopes := (c.scopes.enter n).2 }
  | .enter .methodDef =>
      match n.name with
      | none => c
      | some name =>
          let singleton := c.scopes.singleton || n.definesOnSelf
          c.record path n (qualifyMethod container singleton name) container
  | .enter .constWrite =>
      match n.name with
      | none => c
      | some name => c.record path n (qualify container name) container
  | .exit _ => { c with scopes := c.scopes.exit }
  | _ => c

def listener (path : String) : Listener Collector where
  subscriptions :=
    [.enter .moduleDef, .exit .moduleDef, .enter .classDef, .exit .classDef,
      .enter .singletonClass, .exit .singletonClass, .enter .methodDef, .enter .constWrite]
  handle := handle path

end Collector

/-- The definitions in the tree of a file, in the order in which they are met. -/
def definitions (path : String) (root : SyntaxNode) : List SymbolEntry :=
  ((Collector.listener path).run Collector.start root).found.reverse

end CodeAtlas
