import CodeAtlas.Toml.Number

/-!
# TOML documents

A document is a sequence of lines, each of which says one thing: that a key of the current table has a
value, or which table is the current one from here on.
-/

namespace CodeAtlas.Toml

/-! ## Keys -/

/-- Whether a character may stand in a key without quotes. -/
def isBare (c : Char) : Bool :=
  c.isAlphanum || c == '_' || c == '-'

def bareKey : Reader String := do
  let first ← charWhere isBare
  pure (String.ofList (first :: (← charsWhere isBare)))

def simpleKey : Reader String := do
  blanks
  let key ← bareKey <|> shortText
  blanks
  pure key

/-- The largest number of parts of a key, and of values inside of each other. -/
def maxDepth : Nat :=
  79

/-- Takes a key, and answers the path to its table and its last part. -/
def dottedKey : Reader (List String × String) := do
  let first ← simpleKey
  let rest ← many (char '.' *> simpleKey)
  if rest.length < maxDepth then
    pure ((first :: rest).dropLast, rest.getLast?.getD first)
  else failure

/-! ## Values -/

def truthValue : Reader Value :=
  (word ['t', 'r', 'u', 'e'] *> pure (.bool true)) <|>
    (word ['f', 'a', 'l', 's', 'e'] *> pure (.bool false))

def scalar : Reader Value :=
  (do pure (.text (← quotedText))) <|> numberOrMoment <|> truthValue

def commaSeparated {α : Type} (reader : Reader α) : Reader (List α) :=
  (do
    let first ← reader
    let rest ← many (char ',' *> reader)
    pure (first :: rest)) <|>
  pure []

/-- Takes an array. It may have a comma behind its last item. -/
def array (item : Reader Value) : Reader Value := do
  char '['
  let items ← commaSeparated (gap *> item <* gap)
  if !items.isEmpty then discard (optional (char ','))
  gap
  char ']'
  pure (.array items)

def field (value : Reader Value) : Reader ((List String × String) × Value) := do
  let key ← dottedKey
  char '='
  blanks
  let v ← value
  blanks
  pure (key, v)

/-- Takes a table in braces, which stands on one line. -/
def inlineTable (value : Reader Value) : Reader Value := do
  char '\x7b'
  let fields ← commaSeparated (field value)
  blanks
  char '\x7d'
  let table ← StateT.lift <|
    fields.foldlM (fun table ((path, key), v) => Fields.insert path key v table) []
  pure (.table .inline table)

/-- Takes a value that contains others at most to a depth. -/
def value : Nat → Reader Value
  | 0 => scalar
  | depth + 1 => scalar <|> array (value depth) <|> inlineTable (value depth)

/-! ## Statements -/

inductive Statement where
  | nothing
  | field (path : List String) (key : String) (value : Value)
  | table (path : List String) (key : String)
  | element (path : List String) (key : String)

def documentEnd : Reader Unit := fun cs =>
  if cs.isEmpty then some ((), cs) else none

/-- Takes the end of a line. The last line of a document needs no line break. -/
def lineEnd : Reader Unit :=
  lineBreak <|> documentEnd

def lineRest : Reader Unit := do
  blanks
  discard (optional comment)
  lineEnd

def statement : Reader Statement :=
  (lineBreak *> pure .nothing) <|>
  (comment *> lineEnd *> pure .nothing) <|>
  (do
    let (path, key) ← word ['[', '['] *> dottedKey <* word [']', ']']
    lineRest
    pure (.element path key)) <|>
  (do
    let (path, key) ← char '[' *> dottedKey <* char ']'
    lineRest
    pure (.table path key)) <|>
  (do
    let ((path, key), v) ← field (value maxDepth)
    lineRest
    pure (.field path key v))

/-- The part of a document that has been read: its fields and the path of the current table. -/
structure Draft where
  fields : Fields
  current : List String

def Draft.apply (d : Draft) : Statement → Option Draft
  | .nothing => some d
  | .field path key v =>
      (Fields.within .implied (fun _ => Fields.insert path key v) .header d.current d.fields).map
        fun fields => { d with fields := fields }
  | .table path key =>
      (Fields.openTable path key d.fields).map fun fields => ⟨fields, path ++ [key]⟩
  | .element path key =>
      (Fields.openElement path key d.fields).map fun fields => ⟨fields, path ++ [key]⟩

/-- Takes the statements of a document, before which a mark of byte order may stand. -/
def statements : Reader (List Statement) := do
  discard (optional (char '\ufeff'))
  blanks
  let lines ← many (statement <* blanks)
  documentEnd
  pure lines

def parse (text : String) : Option Fields := do
  let (lines, _) ← statements text.toList
  let d ← lines.foldlM Draft.apply ⟨[], []⟩
  some d.fields

end CodeAtlas.Toml
