import CodeAtlas.Failure
import CodeAtlas.Syntax.OfText
import CodeAtlas.Text.Lines

/-!
# Source files

A source file is a text with the tree that was parsed from it. It keeps a table of its lines, so that
byte offsets and lines can be told from one another.

A tree file is a JSON object with the fields `path`, `text` and `root`. Its tree must end within the
text.
-/

namespace CodeAtlas

structure Source where
  path : String
  text : String
  root : SyntaxNode
  lines : Array Text.Line
  lines_eq : lines = (Text.lines text.toList).toArray

namespace Source

def new (path text : String) (root : SyntaxNode) : Source :=
  ⟨path, text, root, (Text.lines text.toList).toArray, rfl⟩

def byteLength (s : Source) : Nat :=
  s.text.utf8ByteSize

/-! ## Lines -/

/-- The number of lines, which is at least one. -/
def lineCount (s : Source) : Nat :=
  s.lines.size

def lineStart? (s : Source) (line : Nat) : Option Nat :=
  s.lines[line]?.map Text.Line.start

def lineRange? (s : Source) (line : Nat) : Option ByteRange :=
  (s.lineStart? line).map fun start => ⟨start, (s.lineStart? (line + 1)).getD s.byteLength⟩

/-- The number of lines that start at or before an offset. -/
def linesUpTo (s : Source) (offset : Nat) : Nat :=
  s.lines.findIdx fun line => offset < line.start

def lineOf? (s : Source) (offset : Nat) : Option Nat :=
  if s.byteLength < offset then none else some (s.linesUpTo offset - 1)

/-- The distance in bytes from the start of the line to an offset in it. -/
def columnOf? (s : Source) (offset : Nat) : Option Nat := do
  let line ← s.lineOf? offset
  let start ← s.lineStart? line
  some (offset - start)

def nodeAt? (s : Source) (offset : Nat) : Option SyntaxNode :=
  s.root.leafAt? offset

/-! ## Tree files -/

inductive Field where
  | path
  | text
  | root
deriving DecidableEq

def Field.key : Field → String
  | .path => "path"
  | .text => "text"
  | .root => "root"

def Field.ofKey? (key : String) : Option Field :=
  [Field.path, .text, .root].find? fun field => field.key == key

def expectation : String :=
  "struct SourceRepr"

def arrayExpectation : String :=
  expectation ++ " with 3 elements"

structure Draft where
  path : Option String
  text : Option String
  root : Option SyntaxNode

def Draft.has (d : Draft) : Field → Bool
  | .path => d.path.isSome
  | .text => d.text.isSome
  | .root => d.root.isSome

def Draft.finish (d : Draft) : Except Mismatch Source :=
  match d.path, d.text, d.root with
  | none, _, _ => .error (.missingField Field.path.key)
  | some _, none, _ => .error (.missingField Field.text.key)
  | some _, some _, none => .error (.missingField Field.root.key)
  | some path, some text, some root => .ok (new path text root)

open Json (Reader Fault)

def readField (d : Draft) (key : String) : Except Fault (Reader Draft) :=
  match Field.ofKey? key with
  | none => .ok (Json.ignoring d)
  | some field =>
      if d.has field then .error (.mismatch (.duplicateField field.key))
      else
        match field with
        | .path =>
            .ok fun toks => (Json.readString toks).map fun (path, toks) =>
              ({ d with path := some path }, toks)
        | .text =>
            .ok fun toks => (Json.readString toks).map fun (text, toks) =>
              ({ d with text := some text }, toks)
        | .root =>
            .ok fun toks => (SyntaxNode.read toks).map fun (root, toks) =>
              ({ d with root := some root }, toks)

def read : Reader Source
  | [] => .error .endInValue
  | .beginObject :: toks => do
      let (d, toks) ← Json.readFields readField toks true ⟨none, none, none⟩ toks
      let source ← Mismatch.asFault d.finish
      .ok (source, toks)
  | .beginArray :: toks => do
      let (path, toks) ← Json.requireItem Json.readString arrayExpectation 0 toks
      let (text, toks) ← Json.requireItem Json.readString arrayExpectation 1 toks
      let (root, toks) ← Json.requireItem SyntaxNode.read arrayExpectation 2 toks
      let toks ← Json.closeArray toks
      .ok (new path text root, toks)
  | token :: _ => .error (token.unexpected expectation)

def ofJson (text : String) : Failure.Outcome Source := do
  let source ← Failure.during "parse source tree" none <|
    (Json.readWhole read text).mapError Fault.message
  let stop := source.root.range.stop
  if source.byteLength < stop then
    .error ⟨"source tree exceeds text", .unknown,
      some [("path", source.path), ("end", toString stop), ("len", toString source.byteLength)]⟩
  else .ok source

def toValue (path text : String) (root : SyntaxNode) : Json.Value :=
  .object [(Field.path.key, .text path), (Field.text.key, .text text), (Field.root.key, root.toValue)]

end Source

end CodeAtlas
