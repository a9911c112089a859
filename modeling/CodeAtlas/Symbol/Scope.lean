import CodeAtlas.Repeats
import CodeAtlas.Symbol.Name

/-!
# Scopes of names

While a tree is walked, a stack of scopes tells in which namespace a definition stands, and whether
methods defined there are singleton methods.
-/

namespace CodeAtlas

/-- What one level of nesting means for the names below it. -/
structure Scope where
  owner : Option String
  singleton : Bool
deriving DecidableEq

structure ScopeStack where
  scopes : List Scope
deriving DecidableEq

namespace ScopeStack

def empty : ScopeStack :=
  ⟨[]⟩

def owner (s : ScopeStack) : Option String :=
  s.scopes.head?.bind Scope.owner

def singleton (s : ScopeStack) : Bool :=
  match s.scopes with
  | scope :: _ => scope.singleton
  | [] => false

/-- All namespaces in effect, innermost first. A namespace that several scopes in a row have in
common is listed once. -/
def namespaces (s : ScopeStack) : List String :=
  withoutRepeats (s.scopes.filterMap Scope.owner)

/-- Opens the scope of a node, if it has one, and answers the full name that the node defines as a
namespace. -/
def enter (s : ScopeStack) (n : SyntaxNode) : Option String × ScopeStack :=
  match n.kind with
  | .moduleDef | .classDef =>
      let name := n.name.map (qualify s.owner)
      (name, ⟨⟨name.or s.owner, false⟩ :: s.scopes⟩)
  | .singletonClass => (none, ⟨⟨s.owner, true⟩ :: s.scopes⟩)
  | _ => (none, s)

def exit (s : ScopeStack) : ScopeStack :=
  ⟨s.scopes.tail⟩

/-- The scopes that nodes on the way down to a place open. -/
def enclosing (path : List SyntaxNode) : ScopeStack :=
  path.foldl (fun s n => (s.enter n).2) empty

end ScopeStack

end CodeAtlas
