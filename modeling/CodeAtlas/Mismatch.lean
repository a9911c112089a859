import CodeAtlas.Text.Quoted

/-!
# Mismatches

A mismatch is the reason why well-formed data cannot be read as a value of some type: a field is
missing, or something else was found where a certain thing was expected.
-/

namespace CodeAtlas

inductive Mismatch.Found where
  | nothing
  | boolean (value : Bool)
  | integer (value : Int)
  /-- A number that is not an integer, by its text. -/
  | decimal (shown : String)
  | text (value : String)
  | sequence
  | map
deriving DecidableEq

/-- How data differ from what was expected. -/
inductive Mismatch where
  | missingField (name : String)
  | duplicateField (name : String)
  | unknownField (name : String) (known : List String)
  | unknownVariant (name : String) (known : List String)
  | invalidType (found : Mismatch.Found) (expected : String)
  | invalidValue (found : Mismatch.Found) (expected : String)
  | invalidLength (length : Nat) (expected : String)
deriving DecidableEq

namespace Mismatch

def Found.describe : Found → String
  | .nothing => "null"
  | .boolean value => s!"boolean `{value}`"
  | .integer value => s!"integer `{value}`"
  | .decimal shown => s!"floating point `{shown}`"
  | .text value => s!"string {Text.quoted value}"
  | .sequence => "sequence"
  | .map => "map"

/-- The names that would have been accepted, in words. -/
def alternatives : List String → String
  | [first, second] => s!"`{first}` or `{second}`"
  | names => "one of " ++ ", ".intercalate (names.map fun name => s!"`{name}`")

def message : Mismatch → String
  | .missingField name => s!"missing field `{name}`"
  | .duplicateField name => s!"duplicate field `{name}`"
  | .unknownField name known => s!"unknown field `{name}`, expected {alternatives known}"
  | .unknownVariant name known => s!"unknown variant `{name}`, expected {alternatives known}"
  | .invalidType found expected => s!"invalid type: {found.describe}, expected {expected}"
  | .invalidValue found expected => s!"invalid value: {found.describe}, expected {expected}"
  | .invalidLength length expected => s!"invalid length {length}, expected {expected}"

end Mismatch

end CodeAtlas
