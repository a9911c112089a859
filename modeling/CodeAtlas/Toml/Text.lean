/-!
# Texts in TOML

Readers that take from the front of a text what they read, or fail. A document that is not
well-formed is refused as a whole, so a failure needs no reason.

There are four forms of quoted texts: in double quotes with escapes or in single quotes without, both
on one line or, in three quotes, on several lines.
-/

namespace CodeAtlas.Toml

/-- Takes something from the front of a text. -/
abbrev Reader := StateT (List Char) Option

/-! ## Characters -/

def charWhere (isIn : Char → Bool) : Reader Char := fun
  | [] => none
  | c :: rest => if isIn c then some (c, rest) else none

def char (expected : Char) : Reader Unit :=
  discard (charWhere (· == expected))

def word : List Char → Reader Unit
  | [] => pure ()
  | c :: cs => do
      char c
      word cs

/-- Takes all characters of a class up to the first that is not of it. -/
def charsWhere (isIn : Char → Bool) : Reader (List Char) := fun cs => some (cs.span isIn)

/-- Reads as often as possible, but at most as often as there are characters in `bound`. -/
def repeated {α : Type} (reader : Reader α) : List Char → List Char → List α × List Char
  | [], cs => ([], cs)
  | _ :: bound, cs =>
      match reader cs with
      | none => ([], cs)
      | some (x, cs) =>
          let (xs, cs) := repeated reader bound cs
          (x :: xs, cs)

/-- Reads as often as possible something that takes at least one character. -/
def many {α : Type} (reader : Reader α) : Reader (List α) := fun cs =>
  some (repeated reader cs cs)

def isBlank (c : Char) : Bool :=
  c == ' ' || c == '\t'

def blanks : Reader Unit :=
  discard (charsWhere isBlank)

def lineBreak : Reader Unit :=
  word ['\n'] <|> word ['\r', '\n']

/-- Whether a character may stand in a comment, that is, does not control anything but the distance
to the next one. -/
def isShown (c : Char) : Bool :=
  c == '\t' || (0x20 ≤ c.toNat && c.toNat != 0x7f)

def comment : Reader Unit := do
  char '#'
  discard (charsWhere isShown)

/-- Skips blanks, line breaks and comments. -/
def gap : Reader Unit :=
  discard (many (discard (charWhere isBlank) <|> lineBreak <|> comment))

/-! ## Escapes -/

def hexValue (c : Char) : Nat :=
  if c.isDigit then c.toNat - 48 else (c.toNat ||| 32) - 87

def isHexDigit (c : Char) : Bool :=
  c.isDigit || ('a' ≤ c && c ≤ 'f') || ('A' ≤ c && c ≤ 'F')

def charByCode (digits : Nat) : Reader Char := fun cs =>
  let code := (cs.take digits).foldl (fun n c => 16 * n + hexValue c) 0
  if (cs.take digits).length == digits && (cs.take digits).all isHexDigit && code.isValidChar then
    some (Char.ofNat code, cs.drop digits)
  else none

def escape : Reader Char := do
  char '\\'
  match ← charWhere fun _ => true with
  | 'b' => pure '\x08'
  | 't' => pure '\t'
  | 'n' => pure '\n'
  | 'f' => pure '\x0c'
  | 'r' => pure '\r'
  | '\x22' => pure '\x22'
  | '\\' => pure '\\'
  | 'u' => charByCode 4
  | 'U' => charByCode 8
  | _ => failure

/-- Takes the end of a line whose break is escaped, with all blanks and line breaks behind it. -/
def escapedBreak : Reader Unit := do
  char '\\'
  blanks
  lineBreak
  discard (many (discard (charWhere isBlank) <|> lineBreak))

/-! ## Quoted texts -/

def isPlain (c : Char) : Bool :=
  isShown c && c != '\x22' && c != '\\'

def isLiteral (c : Char) : Bool :=
  isShown c && c != '\''

/-- Takes a text in single or double quotes on one line. -/
def shortText : Reader String :=
  (do
    char '\x22'
    let cs ← many (charWhere isPlain <|> escape)
    char '\x22'
    pure (String.ofList cs)) <|>
  (do
    char '\''
    let cs ← charsWhere isLiteral
    char '\''
    pure (String.ofList cs))

/-- Takes one or two quotes that do not close a text on several lines. -/
def innerQuotes (quote : Char) : Reader (List Char) := do
  let quotes ← charsWhere (· == quote)
  if quotes.length = 1 ∨ quotes.length = 2 then pure quotes else failure

/-- Takes the quotes that close a text on several lines. Up to two more may stand before them, which
belong to the text. -/
def closingQuotes (quote : Char) : Reader (List Char) := fun cs =>
  let quotes := (cs.takeWhile (· == quote)).length
  if quotes < 3 then none
  else
    let inner := min (quotes - 3) 2
    some (List.replicate inner quote, cs.drop (inner + 3))

/-- Takes a text on several lines. A line break right behind the opening quotes does not count. -/
def longTextIn (quote : Char) (piece : Reader (List Char)) : Reader String := do
  word [quote, quote, quote]
  let _ ← optional lineBreak
  let pieces ← many (piece <|> (lineBreak *> pure ['\n']) <|> innerQuotes quote)
  let quotes ← closingQuotes quote
  pure (String.ofList (pieces.flatten ++ quotes))

def single (reader : Reader Char) : Reader (List Char) := do
  pure [← reader]

def longText : Reader String :=
  longTextIn '\x22' (single (charWhere isPlain) <|> (escapedBreak *> pure []) <|> single escape) <|>
    longTextIn '\'' (single (charWhere isLiteral))

def quotedText : Reader String :=
  longText <|> shortText

end CodeAtlas.Toml
