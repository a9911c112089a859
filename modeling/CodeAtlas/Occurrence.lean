import CodeAtlas.Syntax.Node

/-!
# Occurrences of symbols

Two tables over the kinds of nodes decide which nodes stand for the same symbol. One says in which
space of names the name of a node lives, so that a local variable never matches a method. The other
says whether the node binds the symbol or refers to it.
-/

namespace CodeAtlas

inductive NameSpace where
  | localVar
  | instanceVar
  | classVar
  | globalVar
  | constant
  | method
deriving DecidableEq

inductive Occurrence where
  | read
  | write
deriving DecidableEq

/-- The symbol that a node names: a space of names, and a name in it. -/
structure Identity where
  space : NameSpace
  name : String
deriving DecidableEq

def Identity.isLocal (symbol : Identity) : Bool :=
  symbol.space = .localVar

namespace NameSpace

def name : NameSpace → String
  | .localVar => "Local"
  | .instanceVar => "Instance"
  | .classVar => "ClassVar"
  | .globalVar => "Global"
  | .constant => "Constant"
  | .method => "Method"

/-- The name without what does not tell symbols apart: the `::` in front of a constant that is looked
up from the top level, and the `=` behind a method that assigns. -/
def normalize (space : NameSpace) (name : String) : String :=
  match space with
  | .constant =>
      match name.toList with
      | ':' :: ':' :: rest => String.ofList rest
      | _ => name
  | .method =>
      if name.toList.getLast? = some '=' then String.ofList name.toList.dropLast else name
  | _ => name

end NameSpace

namespace Occurrence

def name : Occurrence → String
  | .read => "Read"
  | .write => "Write"

/-- The number by which clients know a highlighted use. -/
def highlightCode : Occurrence → Nat
  | .read => 2
  | .write => 3

end Occurrence

namespace SyntaxKind

/-- The space in which the names of nodes of the kind live, if the nodes name symbols. -/
def nameSpace? : SyntaxKind → Option NameSpace
  | .requiredParam | .optionalParam | .restParam | .keywordParam | .keywordRestParam | .blockParam
  | .localVarRead | .localVarWrite => some .localVar
  | .instanceVarRead | .instanceVarWrite => some .instanceVar
  | .classVarRead | .classVarWrite => some .classVar
  | .globalVarRead | .globalVarWrite => some .globalVar
  | .moduleDef | .classDef | .constRead | .constWrite => some .constant
  | .methodDef | .call => some .method
  | _ => none

def occurrence? : SyntaxKind → Option Occurrence
  | .moduleDef | .classDef | .methodDef | .requiredParam | .optionalParam | .restParam
  | .keywordParam | .keywordRestParam | .blockParam | .localVarWrite | .instanceVarWrite
  | .classVarWrite | .globalVarWrite | .constWrite => some .write
  | .localVarRead | .instanceVarRead | .classVarRead | .globalVarRead | .constRead | .call =>
      some .read
  | _ => none

/-- The kinds whose nodes can stand for a symbol. -/
def matchable : List SyntaxKind :=
  all.filter fun kind => kind.nameSpace?.isSome

end SyntaxKind

namespace SyntaxNode

def identity? (n : SyntaxNode) : Option Identity := do
  let space ← n.kind.nameSpace?
  let name ← n.name
  let name := space.normalize name
  if name.isEmpty then none else some ⟨space, name⟩

def occurrenceOf? (n : SyntaxNode) (symbol : Identity) : Option Occurrence :=
  if n.identity? = some symbol then n.kind.occurrence? else none

end SyntaxNode

end CodeAtlas
