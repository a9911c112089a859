import CodeAtlas.Json.Fault
import CodeAtlas.Json.Value
import CodeAtlas.Text.Bytes

/-!
# JSON tokens

A JSON text is first divided into tokens. The division never fails: a token that is not well-formed
carries its fault, which matters only if the token is read. A token that is skipped, as the value of
an unknown field, is held to less: surrogates need not be paired, and a number need not be in range.
-/

namespace CodeAtlas.Json

inductive Atom where
  | null
  | bool (value : Bool)
  | number (value : Number)
  | text (value : String)
deriving DecidableEq

inductive Token where
  | beginObject
  | endObject
  | beginArray
  | endArray
  | comma
  | colon
  | text (read : Except Fault String) (skip : Except Fault Unit)
  /-- Anything else: a number, a word, or characters that begin no value. -/
  | other (read : Except Fault Atom) (skip : Except Fault Unit)

/-! ## Quoted texts -/

def codeUnit? (a b c d : Char) : Option Nat :=
  [a, b, c, d].foldl
    (fun unit? digit => do
      let unit ← unit?
      let value ←
        if '0' ≤ digit ∧ digit ≤ '9' then some (digit.toNat - 48)
        else if 'a' ≤ digit ∧ digit ≤ 'f' then some (digit.toNat - 87)
        else if 'A' ≤ digit ∧ digit ≤ 'F' then some (digit.toNat - 55)
        else none
      some (16 * unit + value))
    (some 0)

def isLead (unit : Nat) : Bool :=
  0xD800 ≤ unit && unit ≤ 0xDBFF

def isTrail (unit : Nat) : Bool :=
  0xDC00 ≤ unit && unit ≤ 0xDFFF

def paired (lead trail : Nat) : Char :=
  Char.ofNat ((lead - 0xD800) * 0x400 + (trail - 0xDC00) + 0x10000)

def escaped? : Char → Option Char
  | '\x22' => some '\x22'
  | '\\' => some '\\'
  | '/' => some '/'
  | 'b' => some '\x08'
  | 'f' => some '\x0c'
  | 'n' => some '\n'
  | 'r' => some '\r'
  | 't' => some '\t'
  | _ => none

/-- The fault of an escape by number for which `rest` has too few characters. An escape takes four
bytes, and if the text ends before these the end is at fault. -/
def shortEscapeFault (rest : List Char) : Fault :=
  if Text.byteLength rest < 4 then .endInText else .invalidEscape

/-- The fault of the first half of a surrogate pair with nothing fit behind it. -/
def unpairedFault : List Char → Fault
  | [] => .endInText
  | '\\' :: [] => .endInText
  | '\\' :: 'u' :: rest => shortEscapeFault rest
  | _ :: _ => .unfinishedSurrogatePair

/-- The content of a quoted text of which `seen` has been read, latest character first, and what
follows its closing quote. -/
def readText (seen : List Char) : List Char → Except Fault (String × List Char)
  | [] => .error .endInText
  | c :: rest =>
      if c = '\x22' then .ok (String.ofList seen.reverse, rest)
      else if c = '\\' then
        match rest with
        | [] => .error .endInText
        | 'u' :: a :: b :: c :: d :: rest =>
            match codeUnit? a b c d with
            | none => .error .invalidEscape
            | some unit =>
                if isTrail unit then .error .loneSurrogate
                else if isLead unit then
                  match rest with
                  | '\\' :: 'u' :: a :: b :: c :: d :: rest =>
                      match codeUnit? a b c d with
                      | none => .error .invalidEscape
                      | some trail =>
                          if isTrail trail then readText (paired unit trail :: seen) rest
                          else .error .loneSurrogate
                  | rest => .error (unpairedFault rest)
                else readText (Char.ofNat unit :: seen) rest
        | 'u' :: rest => .error (shortEscapeFault rest)
        | letter :: rest =>
            match escaped? letter with
            | none => .error .invalidEscape
            | some character => readText (character :: seen) rest
      else if c.toNat < 0x20 then .error .controlCharacter
      else readText (c :: seen) rest

def skipText : List Char → Except Fault (List Char)
  | [] => .error .endInText
  | c :: rest =>
      if c = '\x22' then .ok rest
      else if c = '\\' then
        match rest with
        | [] => .error .endInText
        | 'u' :: a :: b :: c :: d :: rest =>
            match codeUnit? a b c d with
            | none => .error .invalidEscape
            | some _ => skipText rest
        | 'u' :: rest => .error (shortEscapeFault rest)
        | letter :: rest =>
            match escaped? letter with
            | none => .error .invalidEscape
            | some _ => skipText rest
      else if c.toNat < 0x20 then .error .controlCharacter
      else skipText rest

/-! ## Numbers -/

/-- The largest significand. Further digits of a decimal only move its point. -/
def maxSignificand : Nat :=
  UInt64.size - 1

def digitValue (c : Char) : Nat :=
  c.toNat - 48

/-- Appends digits to a significand as long as they fit, and counts those that did fit. -/
def absorb (significand : Nat) : List Char → Nat × Nat
  | [] => (significand, 0)
  | c :: cs =>
      let next := 10 * significand + digitValue c
      if next ≤ maxSignificand then
        let (result, count) := absorb next cs
        (result, count + 1)
      else (significand, 0)

structure Numeral where
  negative : Bool
  whole : List Char
  fraction : Option (List Char)
  /-- The sign and the digits of the exponent, if there is one. -/
  exponent : Option (Bool × List Char)

namespace Numeral

def exponentValue (n : Numeral) : Int :=
  match n.exponent with
  | none => 0
  | some (negative, digits) =>
      let value : Int := (digits.foldl (fun v c => 10 * v + digitValue c) 0 : Nat)
      if negative then -value else value

/-- The number that the numeral denotes. It is an integer if it is written as one, is not the
opposite of zero, and fits into 64 bits. -/
def toNumber (n : Numeral) : Number :=
  let (significand, count) := absorb 0 n.whole
  let dropped := n.whole.length - count
  match n.fraction, n.exponent with
  | none, none =>
      if dropped = 0 ∧ ¬ n.negative then .integer significand
      else if dropped = 0 ∧ 0 < significand ∧ significand ≤ UInt64.size / 2 then .integer (-significand)
      else .decimal n.negative significand dropped
  | fraction, _ =>
      let (significand, places) := absorb significand (fraction.getD [])
      .decimal n.negative significand (dropped - places + n.exponentValue)

end Numeral

def spanDigits (cs : List Char) : List Char × List Char :=
  cs.span Char.isDigit

/-- The digits of which a numeral needs at least one. On failure the answer says whether the text
ends where the digit should be. -/
def someDigits (cs : List Char) : Except Bool (List Char × List Char) :=
  match spanDigits cs with
  | ([], rest) => .error rest.isEmpty
  | found => .ok found

/-- The digits before the point, which are a lone zero or do not begin with one. -/
def wholeDigits (cs : List Char) : Except Bool (List Char × List Char) := do
  let (digits, rest) ← someDigits cs
  match digits with
  | '0' :: _ :: _ => .error false
  | digits => .ok (digits, rest)

def fractionDigits : List Char → Except Bool (Option (List Char) × List Char)
  | '.' :: rest => (someDigits rest).map fun (digits, rest) => (some digits, rest)
  | rest => .ok (none, rest)

def exponentDigits : List Char → Except Bool (Option (Bool × List Char) × List Char)
  | c :: rest =>
      if c = 'e' ∨ c = 'E' then
        let (negative, rest) :=
          match rest with
          | '+' :: rest => (false, rest)
          | '-' :: rest => (true, rest)
          | rest => (false, rest)
        (someDigits rest).map fun (digits, rest) => (some (negative, digits), rest)
      else .ok (none, c :: rest)
  | [] => .ok (none, [])

def readNumeral (cs : List Char) : Except Bool (Numeral × List Char) := do
  let (negative, cs) :=
    match cs with
    | '-' :: rest => (true, rest)
    | cs => (false, cs)
  let (whole, cs) ← wholeDigits cs
  let (fraction, cs) ← fractionDigits cs
  let (exponent, cs) ← exponentDigits cs
  .ok (⟨negative, whole, fraction, exponent⟩, cs)

/-! ## Division into tokens -/

def isBlank (c : Char) : Bool :=
  c = ' ' || c = '\n' || c = '\t' || c = '\r'

def expectWord : List Char → List Char → Except Fault (List Char)
  | [], rest => .ok rest
  | _ :: _, [] => .error .endInValue
  | w :: ws, c :: rest => if w = c then expectWord ws rest else .error .wordExpected

/-- A token that is read and skipped with the same fault. Nothing behind it matters. -/
def broken (fault : Fault) : Token × List Char :=
  (.other (.error fault) (.error fault), [])

def wordToken (word : List Char) (atom : Atom) (cs : List Char) : Token × List Char :=
  match expectWord word cs with
  | .ok rest => (.other (.ok atom) (.ok ()), rest)
  | .error fault => broken fault

/-- The token of a quoted text whose opening quote has been read, and what follows it. -/
def textToken (cs : List Char) : Token × List Char :=
  let read := (readText [] cs).map Prod.fst
  match skipText cs with
  | .ok rest => (.text read (.ok ()), rest)
  | .error fault => (.text read (.error fault), [])

def numberToken (cs : List Char) : Token × List Char :=
  match readNumeral cs with
  | .error atEnd =>
      (.other (.error (if atEnd then .endInValue else .invalidNumber)) (.error .invalidNumber), [])
  | .ok (numeral, rest) =>
      let number := numeral.toNumber
      let read :=
        match number with
        | .integer _ => .ok (.number number)
        | .decimal .. =>
            if number.toFloat?.isSome then .ok (.number number) else .error .numberOutOfRange
      (.other read (.ok ()), rest)

def tokenAt (c : Char) (rest : List Char) : Token × List Char :=
  if c = '\x7b' then (.beginObject, rest)
  else if c = '\x7d' then (.endObject, rest)
  else if c = '[' then (.beginArray, rest)
  else if c = ']' then (.endArray, rest)
  else if c = ',' then (.comma, rest)
  else if c = ':' then (.colon, rest)
  else if c = '\x22' then textToken rest
  else if c = 'n' then wordToken ['u', 'l', 'l'] .null rest
  else if c = 't' then wordToken ['r', 'u', 'e'] (.bool true) rest
  else if c = 'f' then wordToken ['a', 'l', 's', 'e'] (.bool false) rest
  else if c = '-' ∨ c.isDigit then numberToken (c :: rest)
  else broken .valueExpected

/-- The tokens of a text of at most `fuel` characters. -/
def tokensUpTo : Nat → List Char → List Token
  | 0, _ => []
  | _ + 1, [] => []
  | fuel + 1, c :: rest =>
      if isBlank c then tokensUpTo fuel rest
      else
        let (token, rest) := tokenAt c rest
        token :: tokensUpTo fuel rest

def tokens (text : List Char) : List Token :=
  tokensUpTo text.length text

end CodeAtlas.Json
