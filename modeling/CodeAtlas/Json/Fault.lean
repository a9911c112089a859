import CodeAtlas.Mismatch

/-!
# Faults in JSON texts

A JSON text is read from left to right, and the first fault met is reported: a place where the text
is no JSON, or data that cannot be read as the expected type.
-/

namespace CodeAtlas.Json

/-- Why a JSON text cannot be read. -/
inductive Fault where
  | endInValue
  | endInArray
  | endInObject
  | endInText
  | valueExpected
  | wordExpected
  | colonExpected
  | commaOrBracketExpected
  | commaOrBraceExpected
  | keyMustBeText
  | trailingComma
  | trailingCharacters
  | invalidNumber
  | numberOutOfRange
  | invalidEscape
  | loneSurrogate
  | unfinishedSurrogatePair
  | controlCharacter
  | mismatch (reason : Mismatch)
deriving DecidableEq

def Fault.message : Fault → String
  | .endInValue => "EOF while parsing a value"
  | .endInArray => "EOF while parsing a list"
  | .endInObject => "EOF while parsing an object"
  | .endInText => "EOF while parsing a string"
  | .valueExpected => "expected value"
  | .wordExpected => "expected ident"
  | .colonExpected => "expected `:`"
  | .commaOrBracketExpected => "expected `,` or `]`"
  | .commaOrBraceExpected => "expected `,` or `\x7d`"
  | .keyMustBeText => "key must be a string"
  | .trailingComma => "trailing comma"
  | .trailingCharacters => "trailing characters"
  | .invalidNumber => "invalid number"
  | .numberOutOfRange => "number out of range"
  | .invalidEscape => "invalid escape"
  | .loneSurrogate => "lone leading surrogate in hex escape"
  | .unfinishedSurrogatePair => "unexpected end of hex escape"
  | .controlCharacter => "control character (\\u0000-\\u001F) found while parsing a string"
  | .mismatch reason => reason.message

def Fault.invalidType (found : Mismatch.Found) (expected : String) : Fault :=
  .mismatch (.invalidType found expected)

end CodeAtlas.Json
