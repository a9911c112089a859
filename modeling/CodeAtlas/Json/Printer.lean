import CodeAtlas.Json.Value

/-!
# Writing JSON

Two layouts: a compact one without blanks, and an indented one with an item or field on each line.
Texts are written in characters, and only quotes, backslashes and control characters are escaped.
-/

namespace CodeAtlas.Json

def hexDigit (n : Nat) : Char :=
  if n < 10 then Char.ofNat (48 + n) else Char.ofNat (87 + n)

def writtenChar (c : Char) : List Char :=
  if c = '\x22' then ['\\', '\x22']
  else if c = '\\' then ['\\', '\\']
  else if c = '\x08' then ['\\', 'b']
  else if c = '\x0c' then ['\\', 'f']
  else if c = '\n' then ['\\', 'n']
  else if c = '\r' then ['\\', 'r']
  else if c = '\t' then ['\\', 't']
  else if c.toNat < 0x20 then ['\\', 'u', '0', '0', hexDigit (c.toNat / 16), hexDigit (c.toNat % 16)]
  else [c]

def writtenText (s : String) : List Char :=
  '\x22' :: s.toList.flatMap writtenChar ++ ['\x22']

def writtenNumber : Number → List Char
  | .integer value =>
      (if value < 0 then ['-'] else []) ++ Nat.toDigits 10 value.natAbs
  | n@(.decimal ..) =>
      ((n.toFloat?.map (Decimal.text Number.decimalFormat)).getD "null").toList

/-- Parts of a written value between brackets, with commas between them. -/
def enclosed (first last : Char) (parts : List (List Char)) : List Char :=
  first :: [','].intercalate parts ++ [last]

mutual

def compact : Value → List Char
  | .null => "null".toList
  | .bool true => "true".toList
  | .bool false => "false".toList
  | .number value => writtenNumber value
  | .text value => writtenText value
  | .array items => enclosed '[' ']' (compactItems items)
  | .object fields => enclosed '\x7b' '\x7d' (compactFields fields)

def compactItems : List Value → List (List Char)
  | [] => []
  | v :: vs => compact v :: compactItems vs

def compactFields : List (String × Value) → List (List Char)
  | [] => []
  | (key, v) :: rest => (writtenText key ++ ':' :: compact v) :: compactFields rest

end

/-- The start of a line that is indented by two blanks a level. -/
def lineStart (level : Nat) : List Char :=
  '\n' :: List.replicate (2 * level) ' '

/-- Parts of a written value between brackets, each on a line of its own. -/
def enclosedLines (level : Nat) (first last : Char) : List (List Char) → List Char
  | [] => [first, last]
  | parts =>
      first :: [','].intercalate (parts.map fun part => lineStart (level + 1) ++ part) ++
        lineStart level ++ [last]

mutual

def indented (level : Nat) : Value → List Char
  | .array items => enclosedLines level '[' ']' (indentedItems (level + 1) items)
  | .object fields => enclosedLines level '\x7b' '\x7d' (indentedFields (level + 1) fields)
  | v => compact v

def indentedItems (level : Nat) : List Value → List (List Char)
  | [] => []
  | v :: vs => indented level v :: indentedItems level vs

def indentedFields (level : Nat) : List (String × Value) → List (List Char)
  | [] => []
  | (key, v) :: rest =>
      (writtenText key ++ ':' :: ' ' :: indented level v) :: indentedFields level rest

end

namespace Value

def render (v : Value) : String :=
  String.ofList (compact v)

/-- The value with an item or field on each line. -/
def renderLines (v : Value) : String :=
  String.ofList (indented 0 v)

end Value

end CodeAtlas.Json
