import CodeAtlas.Position
import CodeAtlas.Syntax.OfValue

/-!
# Settings

The options that all queries share. In data they are an object all of whose fields may be missing, or
an array of the values in order of declaration.
-/

namespace CodeAtlas

structure Settings where
  positionEncoding : PositionEncoding
  lineFoldingOnly : Bool
  /-- The largest number of symbols in one answer about the workspace. -/
  symbolLimit : Option Nat
  highlightDefinitions : Option Bool
deriving DecidableEq

namespace Settings

def default : Settings :=
  ⟨.utf16, false, none, none⟩

/-- Whether highlights include the places that bind a symbol, as they do unless told otherwise. -/
def highlightsWrites (s : Settings) : Bool :=
  s.highlightDefinitions.getD true

def limit {α : Type} (s : Settings) (symbols : List α) : List α :=
  match s.symbolLimit with
  | none => symbols
  | some n => symbols.take n

/-! ## Settings as data -/

inductive Field where
  | positionEncoding
  | lineFoldingOnly
  | symbolLimit
  | highlightDefinitions
deriving DecidableEq

def Field.key : Field → String
  | .positionEncoding => "positionEncoding"
  | .lineFoldingOnly => "lineFoldingOnly"
  | .symbolLimit => "symbolLimit"
  | .highlightDefinitions => "highlightDefinitions"

def Field.ofKey? (key : String) : Option Field :=
  [Field.positionEncoding, .lineFoldingOnly, .symbolLimit, .highlightDefinitions].find?
    fun field => field.key == key

def expectation : String :=
  "struct QueryConfig"

def arrayExpectation : String :=
  expectation ++ " with 4 elements"

open Json (Value)

def toValue (s : Settings) : Value :=
  .object [(Field.positionEncoding.key, .text s.positionEncoding.name),
    (Field.lineFoldingOnly.key, .bool s.lineFoldingOnly),
    (Field.symbolLimit.key, .orNull .nat s.symbolLimit),
    (Field.highlightDefinitions.key, .orNull .bool s.highlightDefinitions)]

def encodingOfValue (v : Value) : Except Mismatch PositionEncoding :=
  v.toVariant PositionEncoding.ofName

/-- Reads the fields of settings. Unknown fields do not matter. -/
def readFields : Settings → List (String × Value) → Except Mismatch Settings
  | s, [] => .ok s
  | s, (key, v) :: rest => do
      let s ←
        match Field.ofKey? key with
        | none => .ok s
        | some .positionEncoding =>
            (encodingOfValue v).map fun x => { s with positionEncoding := x }
        | some .lineFoldingOnly => v.toBool.map fun x => { s with lineFoldingOnly := x }
        | some .symbolLimit =>
            (v.toOption Value.toNat).map fun x => { s with symbolLimit := x }
        | some .highlightDefinitions =>
            (v.toOption Value.toBool).map fun x => { s with highlightDefinitions := x }
      readFields s rest

/-- Reads settings from an array, of which the first two items may be missing with those behind
them only if nothing else is. -/
def ofItems : List Value → Except Mismatch Settings
  | encoding :: folding :: limit :: highlight :: rest => do
      let items := encoding :: folding :: limit :: highlight :: rest
      let positionEncoding ← encodingOfValue encoding
      let lineFoldingOnly ← folding.toBool
      let symbolLimit ← limit.toOption Value.toNat
      let highlightDefinitions ← highlight.toOption Value.toBool
      Value.refuseMore items rest
      .ok ⟨positionEncoding, lineFoldingOnly, symbolLimit, highlightDefinitions⟩
  | [encoding, folding, limit] => do
      let _ ← encodingOfValue encoding
      let _ ← folding.toBool
      let _ ← limit.toOption Value.toNat
      .error (.invalidLength 3 arrayExpectation)
  | [encoding, folding] => do
      let _ ← encodingOfValue encoding
      let _ ← folding.toBool
      .error (.invalidLength 2 arrayExpectation)
  | [encoding] => do
      let _ ← encodingOfValue encoding
      .error (.invalidLength 2 arrayExpectation)
  | [] => .error (.invalidLength 2 arrayExpectation)

def ofValue : Value → Except Mismatch Settings
  | .object fields => readFields default fields
  | .array items => ofItems items
  | v => .error (.invalidType v.found expectation)

end Settings

end CodeAtlas
