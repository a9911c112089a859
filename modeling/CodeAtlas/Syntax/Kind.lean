/-!
# Kinds of nodes

Each node of a syntax tree belongs to one of a closed set of kinds. In trees that are read or written
a kind appears by its name.
-/

namespace CodeAtlas

inductive SyntaxKind where
  | program
  | statements
  | moduleDef
  | classDef
  | singletonClass
  | methodDef
  | block
  | lambda
  /-- The parameter list of a method, a block or a lambda. -/
  | params
  | requiredParam
  | optionalParam
  | restParam
  | keywordParam
  | keywordRestParam
  | blockParam
  | localVarRead
  | localVarWrite
  | instanceVarRead
  | instanceVarWrite
  | classVarRead
  | classVarWrite
  | globalVarRead
  | globalVarWrite
  | constRead
  | constWrite
  | call
  | args
  | selfRef
  | ifBranch
  | unlessBranch
  | caseBranch
  | whenClause
  | whileLoop
  | untilLoop
  | forLoop
  | beginBlock
  | rescueClause
  | returnJump
  | breakJump
  | nextJump
  | integer
  | float
  | str
  | symbol
  | array
  | hash
  | nil
  | trueValue
  | falseValue
  | error
deriving DecidableEq, Hashable

namespace SyntaxKind

/-- All kinds, in the order in which they are declared. -/
def all : List SyntaxKind :=
  [.program, .statements, .moduleDef, .classDef, .singletonClass, .methodDef, .block, .lambda,
   .params, .requiredParam, .optionalParam, .restParam, .keywordParam, .keywordRestParam,
   .blockParam, .localVarRead, .localVarWrite, .instanceVarRead, .instanceVarWrite,
   .classVarRead, .classVarWrite, .globalVarRead, .globalVarWrite, .constRead, .constWrite,
   .call, .args, .selfRef, .ifBranch, .unlessBranch, .caseBranch, .whenClause,
   .whileLoop, .untilLoop, .forLoop, .beginBlock, .rescueClause, .returnJump, .breakJump,
   .nextJump, .integer, .float, .str, .symbol, .array, .hash, .nil, .trueValue, .falseValue,
   .error]

def name : SyntaxKind → String
  | .program => "Program"
  | .statements => "Statements"
  | .moduleDef => "ModuleDef"
  | .classDef => "ClassDef"
  | .singletonClass => "SingletonClass"
  | .methodDef => "MethodDef"
  | .block => "Block"
  | .lambda => "Lambda"
  | .params => "Params"
  | .requiredParam => "RequiredParam"
  | .optionalParam => "OptionalParam"
  | .restParam => "RestParam"
  | .keywordParam => "KeywordParam"
  | .keywordRestParam => "KeywordRestParam"
  | .blockParam => "BlockParam"
  | .localVarRead => "LocalVarRead"
  | .localVarWrite => "LocalVarWrite"
  | .instanceVarRead => "InstanceVarRead"
  | .instanceVarWrite => "InstanceVarWrite"
  | .classVarRead => "ClassVarRead"
  | .classVarWrite => "ClassVarWrite"
  | .globalVarRead => "GlobalVarRead"
  | .globalVarWrite => "GlobalVarWrite"
  | .constRead => "ConstRead"
  | .constWrite => "ConstWrite"
  | .call => "Call"
  | .args => "Args"
  | .selfRef => "SelfRef"
  | .ifBranch => "If"
  | .unlessBranch => "Unless"
  | .caseBranch => "Case"
  | .whenClause => "When"
  | .whileLoop => "While"
  | .untilLoop => "Until"
  | .forLoop => "For"
  | .beginBlock => "Begin"
  | .rescueClause => "Rescue"
  | .returnJump => "Return"
  | .breakJump => "Break"
  | .nextJump => "Next"
  | .integer => "Integer"
  | .float => "Float"
  | .str => "Str"
  | .symbol => "Symbol"
  | .array => "Array"
  | .hash => "Hash"
  | .nil => "Nil"
  | .trueValue => "True"
  | .falseValue => "False"
  | .error => "Error"

def ofName? (name : String) : Option SyntaxKind :=
  all.find? fun kind => kind.name == name

def rank (kind : SyntaxKind) : Nat :=
  all.idxOf kind

/-- Whether nodes of the kind open a nested naming context. Only these are left as well as entered
when a tree is walked. -/
def isScope : SyntaxKind → Bool
  | .program | .moduleDef | .classDef | .singletonClass | .methodDef | .block | .lambda => true
  | _ => false

def isNamespace : SyntaxKind → Bool
  | .moduleDef | .classDef => true
  | _ => false

def isParam : SyntaxKind → Bool
  | .requiredParam | .optionalParam | .restParam | .keywordParam | .keywordRestParam
  | .blockParam => true
  | _ => false

end SyntaxKind

end CodeAtlas
