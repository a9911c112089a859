import CodeAtlas.Syntax.Record

/-!
# Trees from values

Reading a tree from a JSON value. The fields of an object are read in their order.
-/

namespace CodeAtlas

open Json (Value)

def Json.Value.toText : Value → Except Mismatch String
  | .text s => .ok s
  | v => .error (.invalidType v.found "a string")

def Json.Value.toNat : Value → Except Mismatch Nat
  | .number (.integer value) =>
      if 0 ≤ value then .ok value.toNat
      else .error (.invalidValue (.integer value) "usize")
  | v => .error (.invalidType v.found "usize")

def Json.Value.toBool : Value → Except Mismatch Bool
  | .bool b => .ok b
  | v => .error (.invalidType v.found "a boolean")

def Json.Value.toOption {α : Type} (read : Value → Except Mismatch α) :
    Value → Except Mismatch (Option α)
  | .null => .ok none
  | v => (read v).map some

/-- Reads an alternative, which is given by its name or as an object with its name as the only key
and `null` as its value. -/
def Json.Value.toVariant {α : Type} (ofName : String → Except Mismatch α) : Value → Except Mismatch α
  | .text name => ofName name
  | .object [(name, v)] => do
      let x ← ofName name
      match v with
      | .null => .ok x
      | v => .error (.invalidType v.found "unit")
  | .object _ => .error (.invalidValue .map "map with a single key")
  | v => .error (.invalidType v.found "string or map")

def Json.Value.refuseMore (items : List Value) : List Value → Except Mismatch Unit
  | [] => .ok ()
  | _ :: _ => .error (.invalidLength items.length "fewer elements in array")

def SyntaxKind.ofValue (v : Value) : Except Mismatch SyntaxKind :=
  v.toVariant SyntaxKind.ofName

namespace ByteRange

def readFields : Draft → List (String × Value) → Except Mismatch Draft
  | d, [] => .ok d
  | d, (name, v) :: rest => do
      let field ← d.claim name
      let n ← v.toNat
      readFields (d.put field n) rest

def ofValue : Value → Except Mismatch ByteRange
  | .object fields => do (← readFields ⟨none, none⟩ fields).finish
  | .array [] => .error (.invalidLength 0 expectation)
  | .array [first] => do
      let _ ← first.toNat
      .error (.invalidLength 1 expectation)
  | .array (first :: second :: rest) => do
      let start ← first.toNat
      let stop ← second.toNat
      Json.Value.refuseMore (first :: second :: rest) rest
      .ok ⟨start, stop⟩
  | v => .error (.invalidType v.found expectation)

end ByteRange

namespace SyntaxNode

mutual

def ofValue : Value → Except Mismatch SyntaxNode
  | .object fields => do (← readFields .blank fields).finish
  | .array [] => .error (.invalidLength 0 arrayExpectation)
  | .array [kind] => do
      let _ ← SyntaxKind.ofValue kind
      .error (.invalidLength 2 arrayExpectation)
  | .array [kind, name] => do
      let _ ← SyntaxKind.ofValue kind
      let _ ← name.toOption Json.Value.toText
      .error (.invalidLength 2 arrayExpectation)
  | .array [kind, name, range] => do
      let kind ← SyntaxKind.ofValue kind
      let name ← name.toOption Json.Value.toText
      let range ← ByteRange.ofValue range
      .ok ⟨kind, name, range, none, []⟩
  | .array [kind, name, range, nameRange] => do
      let kind ← SyntaxKind.ofValue kind
      let name ← name.toOption Json.Value.toText
      let range ← ByteRange.ofValue range
      let nameRange ← nameRange.toOption ByteRange.ofValue
      .ok ⟨kind, name, range, nameRange, []⟩
  | .array (kind :: name :: range :: nameRange :: children :: rest) => do
      let items := kind :: name :: range :: nameRange :: children :: rest
      let kind ← SyntaxKind.ofValue kind
      let name ← name.toOption Json.Value.toText
      let range ← ByteRange.ofValue range
      let nameRange ← nameRange.toOption ByteRange.ofValue
      let children ← readChildren children
      Json.Value.refuseMore items rest
      .ok ⟨kind, name, range, nameRange, children⟩
  | v => .error (.invalidType v.found expectation)

def readFields (d : Draft) : List (String × Value) → Except Mismatch Draft
  | [] => .ok d
  | (key, v) :: rest => do
      match ← d.claim key with
      | none => readFields d rest
      | some .kind =>
          let kind ← SyntaxKind.ofValue v
          readFields { d with kind := some kind } rest
      | some .name =>
          let name ← v.toOption Json.Value.toText
          readFields { d with name := some name } rest
      | some .range =>
          let range ← ByteRange.ofValue v
          readFields { d with range := some range } rest
      | some .nameRange =>
          let nameRange ← v.toOption ByteRange.ofValue
          readFields { d with nameRange := some nameRange } rest
      | some .children =>
          let children ← readChildren v
          readFields { d with children := some children } rest

def readChildren : Value → Except Mismatch (List (Option SyntaxNode))
  | .array items => readSlots items
  | v => .error (.invalidType v.found "a sequence")

/-- Reads slots, of which empty ones are `null`. -/
def readSlots : List Value → Except Mismatch (List (Option SyntaxNode))
  | [] => .ok []
  | .null :: rest => do
      let slots ← readSlots rest
      .ok (none :: slots)
  | v :: rest => do
      let child ← ofValue v
      let slots ← readSlots rest
      .ok (some child :: slots)

end

end SyntaxNode

end CodeAtlas
