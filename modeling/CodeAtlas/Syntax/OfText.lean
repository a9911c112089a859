import CodeAtlas.Syntax.Record

/-!
# Trees from texts

Reading a tree from the tokens of a JSON text.
-/

namespace CodeAtlas

open Json (Reader Token Fault)

/-- A reason to refuse data as a fault of the text. -/
def Mismatch.asFault {α : Type} (result : Except Mismatch α) : Except Fault α :=
  result.mapError .mismatch

def SyntaxKind.read : Reader SyntaxKind :=
  Json.readVariant SyntaxKind.ofName

namespace ByteRange

def readField (d : Draft) (name : String) : Except Fault (Reader Draft) := do
  let field ← Mismatch.asFault (d.claim name)
  .ok fun toks => (Json.readNat toks).map fun (n, toks) => (d.put field n, toks)

def read : Reader ByteRange
  | [] => .error .endInValue
  | .beginObject :: toks => do
      let (d, toks) ← Json.readFields readField toks true ⟨none, none⟩ toks
      let range ← Mismatch.asFault d.finish
      .ok (range, toks)
  | .beginArray :: toks => do
      let (start, toks) ← Json.requireItem Json.readNat expectation 0 toks
      let (stop, toks) ← Json.requireItem Json.readNat expectation 1 toks
      let toks ← Json.closeArray toks
      .ok (⟨start, stop⟩, toks)
  | token :: _ => .error (token.unexpected expectation)

end ByteRange

namespace SyntaxNode

def readField (children : Reader (List (Option SyntaxNode))) (d : Draft) (key : String) :
    Except Fault (Reader Draft) := do
  match ← Mismatch.asFault (d.claim key) with
  | none => .ok (Json.ignoring d)
  | some .kind =>
      .ok fun toks => (SyntaxKind.read toks).map fun (kind, toks) =>
        ({ d with kind := some kind }, toks)
  | some .name =>
      .ok fun toks => (Json.readOptional Json.readString toks).map fun (name, toks) =>
        ({ d with name := some name }, toks)
  | some .range =>
      .ok fun toks => (ByteRange.read toks).map fun (range, toks) =>
        ({ d with range := some range }, toks)
  | some .nameRange =>
      .ok fun toks => (Json.readOptional ByteRange.read toks).map fun (nameRange, toks) =>
        ({ d with nameRange := some nameRange }, toks)
  | some .children =>
      .ok fun toks => (children toks).map fun (slots, toks) =>
        ({ d with children := some slots }, toks)

/-- Reads a node that nests at most as deep as there are tokens in `bound`. -/
def readWithin : List Token → Reader SyntaxNode
  | _, [] => .error .endInValue
  | _ :: bound, .beginObject :: toks => do
      let children := Json.readArray (Json.readOptional (readWithin bound))
      let (d, toks) ← Json.readFields (readField children) toks true .blank toks
      let node ← Mismatch.asFault d.finish
      .ok (node, toks)
  | _ :: bound, .beginArray :: toks => do
      let children := Json.readArray (Json.readOptional (readWithin bound))
      let (kind, toks) ← Json.requireItem SyntaxKind.read arrayExpectation 0 toks
      let (name, toks) ← Json.optionalItem (Json.readOptional Json.readString) none 1 toks
      let (range, toks) ← Json.requireItem ByteRange.read arrayExpectation 2 toks
      let (nameRange, toks) ← Json.optionalItem (Json.readOptional ByteRange.read) none 3 toks
      let (slots, toks) ← Json.optionalItem children [] 4 toks
      let toks ← Json.closeArray toks
      .ok (⟨kind, name, range, nameRange, slots⟩, toks)
  | _, token :: _ => .error (token.unexpected expectation)

def read : Reader SyntaxNode := fun toks =>
  readWithin toks toks

end SyntaxNode

end CodeAtlas
