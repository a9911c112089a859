import CodeAtlas.Settings
import CodeAtlas.Toml.Document

/-!
# Settings in TOML

Settings are kept in files as TOML documents, whose fields are those of settings. Unknown fields do
not matter, and the first field that cannot be read is reported.
-/

namespace CodeAtlas

namespace Toml

/-- Why a document cannot be read as data of some type. -/
inductive Fault where
  | malformed
  /-- A value cannot stand for one of several alternatives, whatever they are called. -/
  | notAlternative
  | mismatch (reason : Mismatch)
deriving DecidableEq

namespace Fault

def message : Fault → String
  | .malformed => "malformed document"
  | .notAlternative => "wanted string or table"
  | .mismatch reason => reason.message

end Fault

namespace Value

def toBool : Value → Except Mismatch Bool
  | .bool value => .ok value
  | v => .error (.invalidType v.found "a boolean")

def toNat : Value → Except Mismatch Nat
  | .integer value =>
      if 0 ≤ value then .ok value.toNat else .error (.invalidValue (.integer value) "usize")
  | v => .error (.invalidType v.found "usize")

/-- Whether the value has no parts where it might have some. -/
def isEmptyCollection : Value → Bool
  | .array [] | .table _ [] => true
  | _ => false

/-- Reads one of several alternatives by its name, which may also be the only key of a table and
then has an empty value. -/
def toVariant {α : Type} (ofName : String → Except Mismatch α) : Value → Except Fault α
  | .text name => (ofName name).mapError .mismatch
  | .table _ [(name, v)] => do
      let x ← (ofName name).mapError .mismatch
      if v.isEmptyCollection then .ok x else .error .notAlternative
  | _ => .error .notAlternative

end Value

end Toml

namespace Settings

open Toml (Fault)

def readTable : Settings → Toml.Fields → Except Fault Settings
  | s, [] => .ok s
  | s, (key, v) :: rest => do
      let s ←
        match Field.ofKey? key with
        | none => .ok s
        | some .positionEncoding =>
            (v.toVariant PositionEncoding.ofName).map fun x => { s with positionEncoding := x }
        | some .lineFoldingOnly =>
            (v.toBool.mapError .mismatch).map fun x => { s with lineFoldingOnly := x }
        | some .symbolLimit =>
            (v.toNat.mapError .mismatch).map fun x => { s with symbolLimit := some x }
        | some .highlightDefinitions =>
            (v.toBool.mapError .mismatch).map fun x => { s with highlightDefinitions := some x }
      readTable s rest

def ofToml (text : String) : Except Fault Settings :=
  match Toml.parse text with
  | none => .error .malformed
  | some fields => readTable default fields

def tomlActivity : String :=
  "parse query config"

def ofTomlFile (text : String) : Failure.Outcome Settings :=
  Failure.during tomlActivity none ((ofToml text).mapError Fault.message)

end Settings

end CodeAtlas
