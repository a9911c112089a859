import CodeAtlas.Json.Token

/-!
# Reading typed data from tokens

A reader takes the tokens of one value from the front of a token list. Readers of records are told
how to read each field; unknown fields are skipped. Whatever goes wrong first, from left to right, is
reported.
-/

namespace CodeAtlas.Json

/-- A reader of values of a type. It answers what it has read and the tokens behind it. -/
abbrev Reader (α : Type) := List Token → Except Fault (α × List Token)

/-! ## Values without parts -/

def Atom.found : Atom → Mismatch.Found
  | .null => .nothing
  | .bool value => .boolean value
  | .number value => value.found
  | .text value => .text value

/-- The fault of finding a token where a value of another type is expected. The value found is read
as far as it has no parts, so a fault in it comes first. -/
def Token.unexpected (expected : String) : Token → Fault
  | .beginObject => .invalidType .map expected
  | .beginArray => .invalidType .sequence expected
  | .text (.ok value) _ => .invalidType (.text value) expected
  | .text (.error fault) _ => fault
  | .other (.ok atom) _ => .invalidType atom.found expected
  | .other (.error fault) _ => fault
  | .endObject | .endArray | .comma | .colon => .valueExpected

def readString : Reader String
  | [] => .error .endInValue
  | .text (.ok value) _ :: rest => .ok (value, rest)
  | token :: _ => .error (token.unexpected "a string")

def readNat : Reader Nat
  | [] => .error .endInValue
  | .other (.ok (.number (.integer value))) _ :: rest =>
      if 0 ≤ value then .ok (value.toNat, rest)
      else .error (.mismatch (.invalidValue (.integer value) "usize"))
  | token :: _ => .error (token.unexpected "usize")

/-- Reads nothing, which is written as `null`. -/
def readNothing : Reader Unit
  | [] => .error .endInValue
  | .other (.ok .null) _ :: rest => .ok ((), rest)
  | token :: _ => .error (token.unexpected "unit")

def readOptional {α : Type} (reader : Reader α) : Reader (Option α)
  | .other (.ok .null) _ :: rest => .ok (none, rest)
  | toks => (reader toks).map fun (x, rest) => (some x, rest)

/-! ## Arrays -/

/-- Moves to the next item of an array, if it has one. Before the first item there is no comma. -/
def nextItem (first : Bool) : List Token → Except Fault (Option (List Token))
  | [] => .error .endInArray
  | .endArray :: _ => .ok none
  | .comma :: rest =>
      if first then .ok (some (.comma :: rest))
      else
        match rest with
        | [] => .error .endInValue
        | .endArray :: _ => .error .trailingComma
        | rest => .ok (some rest)
  | toks => if first then .ok (some toks) else .error .commaOrBracketExpected

/-- Leaves an array that is expected to have no further items. -/
def closeArray : List Token → Except Fault (List Token)
  | [] => .error .endInArray
  | .endArray :: rest => .ok rest
  | .comma :: .endArray :: _ => .error .trailingComma
  | _ :: _ => .error .trailingCharacters

/-- Reads the items of an array up to its end, at most as many as there are tokens in `bound`. -/
def readItems {α : Type} (item : Reader α) (bound : List Token) (first : Bool) : Reader (List α) :=
  fun toks =>
    match bound with
    | [] => .error .endInArray
    | _ :: bound => do
        match ← nextItem first toks with
        | none => .ok ([], toks.tail)
        | some toks =>
            let (x, toks) ← item toks
            let (xs, toks) ← readItems item bound false toks
            .ok (x :: xs, toks)

def readArray {α : Type} (item : Reader α) : Reader (List α)
  | [] => .error .endInValue
  | .beginArray :: rest => readItems item rest true rest
  | token :: _ => .error (token.unexpected "a sequence")

/-- Reads an item that an array must have at a place; `expected` says what the array stands for. -/
def requireItem {α : Type} (item : Reader α) (expected : String) (place : Nat) : Reader α :=
  fun toks => do
    match ← nextItem (place == 0) toks with
    | none => .error (.mismatch (.invalidLength place expected))
    | some toks => item toks

/-- Reads an item that an array may have at a place, but not without those before it. -/
def optionalItem {α : Type} (item : Reader α) (default : α) (place : Nat) : Reader α :=
  fun toks => do
    match ← nextItem (place == 0) toks with
    | none => .ok (default, toks)
    | some toks => item toks

/-! ## Objects -/

def afterColon : List Token → Except Fault (List Token)
  | [] => .error .endInObject
  | .colon :: rest => .ok rest
  | _ :: _ => .error .colonExpected

/-- Moves to the next key of an object, if it has one. Before the first key there is no comma. -/
def nextKey (first : Bool) : List Token → Except Fault (Option (String × List Token))
  | [] => .error .endInObject
  | .endObject :: _ => .ok none
  | .text read _ :: rest =>
      if first then read.map fun key => some (key, rest) else .error .commaOrBraceExpected
  | .comma :: rest =>
      if first then .error .keyMustBeText
      else
        match rest with
        | [] => .error .endInValue
        | .text read _ :: rest => read.map fun key => some (key, rest)
        | .endObject :: _ => .error .trailingComma
        | _ :: _ => .error .keyMustBeText
  | _ :: _ => .error (if first then .keyMustBeText else .commaOrBraceExpected)

/-- Reads the fields of an object up to its end, at most as many as there are tokens in `bound`. What
has been read so far is told the key of each field, and answers how to go on behind the key. -/
def readFields {σ : Type} (field : σ → String → Except Fault (Reader σ)) (bound : List Token)
    (first : Bool) (s : σ) : Reader σ := fun toks =>
  match bound with
  | [] => .error .endInObject
  | _ :: bound => do
      match ← nextKey first toks with
      | none => .ok (s, toks.tail)
      | some (key, toks) =>
          let value ← field s key
          let toks ← afterColon toks
          let (s, toks) ← value toks
          readFields field bound false s toks

/-! ## Variants -/

def named {α : Type} (ofName : String → Except Mismatch α) (name : String) : Except Fault α :=
  (ofName name).mapError .mismatch

/-- Reads an alternative, which is written by its name alone or as an object with its name as the
only key and `null` as its value. -/
def readVariant {α : Type} (ofName : String → Except Mismatch α) : Reader α
  | [] => .error .endInValue
  | .text read _ :: rest => do
      let x ← named ofName (← read)
      .ok (x, rest)
  | .beginObject :: toks => do
      match ← nextKey true toks with
      | none => .error .valueExpected
      | some (name, toks) =>
          let x ← named ofName name
          let toks ← afterColon toks
          let (_, toks) ← readNothing toks
          match toks with
          | [] => .error .endInObject
          | .endObject :: rest => .ok (x, rest)
          | _ :: _ => .error .valueExpected
  | _ :: _ => .error .valueExpected

/-! ## Skipping -/

inductive Enclosure where
  | array
  | object
deriving DecidableEq

/-- What is due next in a value that is skipped. -/
inductive Due where
  | value
  | key
  | colon
  /-- A comma, or the end of the innermost enclosure. -/
  | separator
  /-- The first item of the innermost enclosure, or its end. -/
  | opening
deriving DecidableEq

/-- The fault of a text that ends where something is due. -/
def Due.endFault : Due → List Enclosure → Fault
  | .value, _ => .endInValue
  | .key, _ | .colon, _ => .endInObject
  | .separator, .array :: _ | .opening, .array :: _ => .endInArray
  | .separator, _ | .opening, _ => .endInObject

/-- What is due at a token, once it is known whether it ends an enclosure that has just begun. -/
def Due.settle : Due → List Enclosure → Token → Due
  | .opening, .array :: _, .endArray => .separator
  | .opening, .object :: _, .endObject => .separator
  | .opening, .array :: _, _ => .value
  | .opening, _, _ => .key
  | due, _, _ => due

/-- Skips the tokens up to the end of a value, given what encloses the place, innermost first, and
what is due there. -/
def skipFrom : List Token → List Enclosure → Due → Except Fault (List Token)
  | [], stack, due => .error (due.endFault stack)
  | token :: rest, stack, due =>
      match due.settle stack token with
      | .value =>
          match token with
          | .beginArray => skipFrom rest (.array :: stack) .opening
          | .beginObject => skipFrom rest (.object :: stack) .opening
          | .text _ (.ok _) | .other _ (.ok _) =>
              match stack with
              | [] => .ok rest
              | _ :: _ => skipFrom rest stack .separator
          | .text _ (.error fault) | .other _ (.error fault) => .error fault
          | .endArray | .endObject | .comma | .colon => .error .valueExpected
      | .key =>
          match token with
          | .text _ (.ok _) => skipFrom rest stack .colon
          | .text _ (.error fault) => .error fault
          | _ => .error .keyMustBeText
      | .colon =>
          match token with
          | .colon => skipFrom rest stack .value
          | _ => .error .colonExpected
      | .separator | .opening =>
          match stack, token with
          | .array :: _, .comma => skipFrom rest stack .value
          | .object :: _, .comma => skipFrom rest stack .key
          | [.array], .endArray | [.object], .endObject => .ok rest
          | .array :: outer, .endArray | .object :: outer, .endObject =>
              skipFrom rest outer .separator
          | .array :: _, _ => .error .commaOrBracketExpected
          | _, _ => .error .commaOrBraceExpected

def skipValue (toks : List Token) : Except Fault (List Token) :=
  skipFrom toks [] .value

def ignoring {σ : Type} (s : σ) : Reader σ := fun toks =>
  (skipValue toks).map fun toks => (s, toks)

/-! ## Whole texts -/

def readWhole {α : Type} (reader : Reader α) (text : String) : Except Fault α := do
  let (x, toks) ← reader (tokens text.toList)
  match toks with
  | [] => .ok x
  | _ :: _ => .error .trailingCharacters

/-! ## Values of any type -/

/-- Puts a field into an object whose keys are in increasing order. A field with the same key is
replaced. -/
def insertField (key : String) (value : Value) : List (String × Value) → List (String × Value)
  | [] => [(key, value)]
  | (k, v) :: rest =>
      match compare key k with
      | .lt => (key, value) :: (k, v) :: rest
      | .eq => (key, value) :: rest
      | .gt => (k, v) :: insertField key value rest

/-- Reads a value of any type that nests at most as deep as there are tokens in `bound`. The fields of
an object are put into the order of their keys, and of two fields with one key the later one counts. -/
def readValue : List Token → Reader Value
  | _, [] => .error .endInValue
  | _, .other (.ok .null) _ :: rest => .ok (.null, rest)
  | _, .other (.ok (.bool value)) _ :: rest => .ok (.bool value, rest)
  | _, .other (.ok (.number value)) _ :: rest => .ok (.number value, rest)
  | _, .other (.ok (.text value)) _ :: rest | _, .text (.ok value) _ :: rest => .ok (.text value, rest)
  | _, .other (.error fault) _ :: _ | _, .text (.error fault) _ :: _ => .error fault
  | _ :: bound, .beginArray :: rest =>
      (readItems (readValue bound) rest true rest).map fun (items, rest) => (.array items, rest)
  | _ :: bound, .beginObject :: rest =>
      let field (fields : List (String × Value)) (key : String) : Except Fault (Reader _) :=
        .ok fun toks => (readValue bound toks).map fun (value, toks) =>
          (insertField key value fields, toks)
      (readFields field rest true [] rest).map fun (fields, rest) => (.object fields, rest)
  | _, _ :: _ => .error .valueExpected

def Value.parse (text : String) : Except Fault Value :=
  readWhole (fun toks => readValue toks toks) text

end CodeAtlas.Json
