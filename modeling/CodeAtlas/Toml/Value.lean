import CodeAtlas.Decimal.Shortest
import CodeAtlas.Mismatch

/-!
# TOML values

The values that a TOML document denotes, and the ways in which statements of a document add to its
tables. A table may be named before it is written down, so each table remembers how it came to be.
-/

namespace CodeAtlas.Toml

/-- How a table came to be. -/
inductive Origin where
  /-- By a header of its own. The document itself counts as such a table. -/
  | header
  | implied
  | dotted
  /-- By braces. Nothing can be added to such a table. -/
  | inline
deriving DecidableEq

/-- A TOML value. The fields of a table keep their order. -/
inductive Value where
  | text (value : String)
  | integer (value : Int)
  | float (value : Float)
  | bool (value : Bool)
  /-- A date, a time, or both. Which one does not matter here. -/
  | moment
  | array (items : List Value)
  | table (origin : Origin) (fields : List (String × Value))
  /-- Tables with the same header, the latest first. -/
  | tables (latestFirst : List (List (String × Value)))

abbrev Fields := List (String × Value)

/-- Floats are shown by position. Of two shortest decimals that are equally near the larger one is
shown. -/
def floatFormat : Decimal.Format :=
  ⟨.up, fun _ => true⟩

def Value.found : Value → Mismatch.Found
  | .text value => .text value
  | .integer value => .integer value
  | .float value => .decimal (Decimal.text floatFormat value)
  | .bool value => .boolean value
  | .moment | .table .. => .map
  | .array _ | .tables _ => .sequence

namespace Fields

/-! ## Reaching a table -/

/-- Changes the value of a key where it stands, or adds one behind all fields. -/
def update (key : String) (change : Option Value → Option Value) : Fields → Option Fields
  | [] => (change none).map fun v => [(key, v)]
  | (k, v) :: rest =>
      if k = key then (change (some v)).map fun v => (k, v) :: rest
      else (update key change rest).map ((k, v) :: ·)

/-- Whether a path that brings about tables of the origin `made` leads through a table. A dotted key
leads through no table with a header of its own. -/
def leadsThrough (made : Origin) : Origin → Bool
  | .header => made != .dotted
  | .implied | .dotted => true
  | .inline => false

/-- Acts on the table that a path leads to. Missing tables on the way are brought about with the
origin `made`, and tables with the same header are represented by the latest of them. -/
def within (made : Origin) (act : Origin → Fields → Option Fields) :
    Origin → List String → Fields → Option Fields
  | origin, [], fields => act origin fields
  | _, key :: path, fields =>
      update key
        (fun
          | none => (within made act made path []).map (.table made)
          | some (.table origin inner) =>
              if leadsThrough made origin then
                (within made act origin path inner).map (.table origin)
              else none
          | some (.tables (latest :: earlier)) =>
              (within made act .header path latest).map fun t => .tables (t :: earlier)
          | some _ => none)
        fields

/-! ## Adding to a table -/

def addNew (key : String) (v : Value) : Fields → Option Fields :=
  update key fun
    | none => some v
    | some _ => none

/-- Adds a field by a dotted key. Behind a path, its table must have come about by a dotted key too. -/
def insert (path : List String) (key : String) (v : Value) : Fields → Option Fields :=
  within .dotted
    (fun origin fields =>
      if path.isEmpty || origin == .dotted then addNew key v fields else none)
    .header path

/-- Opens a table by its header. A table that was only implied before keeps its fields, but comes
behind all others. -/
def openTable (path : List String) (key : String) : Fields → Option Fields :=
  within .implied
    (fun _ fields =>
      match fields.lookup key with
      | none => some (fields ++ [(key, .table .header [])])
      | some (.table .implied inner) =>
          some (fields.filter (fun field => field.1 != key) ++ [(key, .table .header inner)])
      | some _ => none)
    .header path

/-- Opens one more of the tables with the same header. -/
def openElement (path : List String) (key : String) : Fields → Option Fields :=
  within .implied
    (fun _ => update key fun
      | none => some (.tables [[]])
      | some (.tables earlier) => some (.tables ([] :: earlier))
      | some _ => none)
    .header path

end Fields

end CodeAtlas.Toml
