import CodeAtlas.Json.Reader
import CodeAtlas.Json.Printer
import CodeAtlas.Syntax.Node

/-!
# Trees as data

The form that trees have in JSON. A node is an object with the fields `kind`, `name`, `range`,
`nameRange` and `children`, of which only the kind and the range must be there, or an array of these
five in this order. A range is an object with the fields `start` and `end`, or an array of both.

This module holds what reading from a text and reading from a value have in common, and writing.
-/

namespace CodeAtlas

namespace SyntaxKind

def ofName (name : String) : Except Mismatch SyntaxKind :=
  match ofName? name with
  | some kind => .ok kind
  | none => .error (.unknownVariant name (all.map SyntaxKind.name))

end SyntaxKind

namespace ByteRange

inductive Field where
  | start
  | stop
deriving DecidableEq

def Field.name : Field → String
  | .start => "start"
  | .stop => "end"

/-- The field with a name. A range has no others. -/
def Field.ofName (name : String) : Except Mismatch Field :=
  match [Field.start, Field.stop].find? fun field => field.name == name with
  | some field => .ok field
  | none => .error (.unknownField name [Field.start.name, Field.stop.name])

def expectation : String :=
  "struct Range"

/-- A range of which some fields have been read. -/
structure Draft where
  start : Option Nat
  stop : Option Nat

def Draft.has (d : Draft) : Field → Bool
  | .start => d.start.isSome
  | .stop => d.stop.isSome

def Draft.put (d : Draft) (field : Field) (value : Nat) : Draft :=
  match field with
  | .start => { d with start := some value }
  | .stop => { d with stop := some value }

/-- The field with a name, unless it has been read before. -/
def Draft.claim (d : Draft) (name : String) : Except Mismatch Field := do
  let field ← Field.ofName name
  if d.has field then .error (.duplicateField field.name) else .ok field

def Draft.finish (d : Draft) : Except Mismatch ByteRange :=
  match d.start, d.stop with
  | none, _ => .error (.missingField Field.start.name)
  | some _, none => .error (.missingField Field.stop.name)
  | some start, some stop => .ok ⟨start, stop⟩

def toValue (r : ByteRange) : Json.Value :=
  .object [(Field.start.name, .nat r.start), (Field.stop.name, .nat r.stop)]

end ByteRange

namespace SyntaxNode

inductive Field where
  | kind
  | name
  | range
  | nameRange
  | children
deriving DecidableEq

def Field.key : Field → String
  | .kind => "kind"
  | .name => "name"
  | .range => "range"
  | .nameRange => "nameRange"
  | .children => "children"

def Field.ofKey? (key : String) : Option Field :=
  [Field.kind, .name, .range, .nameRange, .children].find? fun field => field.key == key

def expectation : String :=
  "struct SyntaxNode"

def arrayExpectation : String :=
  expectation ++ " with 5 elements"

structure Draft where
  kind : Option SyntaxKind
  name : Option (Option String)
  range : Option ByteRange
  nameRange : Option (Option ByteRange)
  children : Option (List (Option SyntaxNode))

def Draft.blank : Draft :=
  ⟨none, none, none, none, none⟩

def Draft.has (d : Draft) : Field → Bool
  | .kind => d.kind.isSome
  | .name => d.name.isSome
  | .range => d.range.isSome
  | .nameRange => d.nameRange.isSome
  | .children => d.children.isSome

/-- The field with a name, if nodes have it and it has not been read before. -/
def Draft.claim (d : Draft) (key : String) : Except Mismatch (Option Field) :=
  match Field.ofKey? key with
  | none => .ok none
  | some field => if d.has field then .error (.duplicateField field.key) else .ok (some field)

def Draft.finish (d : Draft) : Except Mismatch SyntaxNode :=
  match d.kind, d.range with
  | none, _ => .error (.missingField Field.kind.key)
  | some _, none => .error (.missingField Field.range.key)
  | some kind, some range =>
      .ok ⟨kind, d.name.join, range, d.nameRange.join, d.children.getD []⟩

mutual

/-- The node as a value. Fields that would say nothing are left out. -/
def toValue : SyntaxNode → Json.Value
  | ⟨kind, name, range, nameRange, slots⟩ =>
      .object <|
        [(Field.kind.key, .text kind.name)] ++
        (name.map fun s => (Field.name.key, .text s)).toList ++
        [(Field.range.key, range.toValue)] ++
        (nameRange.map fun r => (Field.nameRange.key, r.toValue)).toList ++
        (match slots with
          | [] => []
          | slot :: rest => [(Field.children.key, .array (slotValues (slot :: rest)))])

def slotValues : List (Option SyntaxNode) → List Json.Value
  | [] => []
  | none :: rest => .null :: slotValues rest
  | some child :: rest => toValue child :: slotValues rest

end

end SyntaxNode

end CodeAtlas
