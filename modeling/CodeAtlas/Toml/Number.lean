import CodeAtlas.Toml.Text
import CodeAtlas.Toml.Value

/-!
# Numbers and moments in TOML

Integers have 64 bits with a sign. Floats are read to the nearest binary64 number. Dates and times
have to exist, but otherwise do not matter.
-/

namespace CodeAtlas.Toml

/-! ## Digits -/

/-- Takes digits, which may be grouped by single underscores. -/
def digitGroups (isIn : Char → Bool) : Reader (List Char) := do
  let first ← charWhere isIn
  let rest ← many (charWhere isIn <|> (char '_' *> charWhere isIn))
  pure (first :: rest)

/-- Takes a lone zero or decimal digits that do not begin with one. -/
def wholeDigits : Reader (List Char) :=
  (char '0' *> pure ['0']) <|> digitGroups Char.isDigit

/-- Takes a sign, if there is one, and answers whether it is negative. -/
def sign : Reader Bool :=
  (char '-' *> pure true) <|> (char '+' *> pure false) <|> pure false

def numberOf (base : Nat) (digits : List Char) : Nat :=
  digits.foldl (fun n c => base * n + hexValue c) 0

/-! ## Integers -/

def integerValue (n : Int) : Reader Value :=
  if Int64.minValue.toInt ≤ n ∧ n ≤ Int64.maxValue.toInt then pure (.integer n) else failure

def basedInteger (mark : Char) (base : Nat) (isIn : Char → Bool) : Reader Value := do
  word ['0', mark]
  integerValue (numberOf base (← digitGroups isIn))

/-- Takes an integer that is written to base two, eight or sixteen. -/
def specialInteger : Reader Value :=
  basedInteger 'x' 16 isHexDigit <|>
    basedInteger 'o' 8 (fun c => '0' ≤ c && c ≤ '7') <|>
    basedInteger 'b' 2 (fun c => c == '0' || c == '1')

/-! ## Floats -/

def infinity : Float :=
  1.0 / 0.0

/-- The float nearest to `significand * 10 ^ exponent`. The bounds lie outside of the range of
floats. -/
def nearestFloat (significand : Nat) (exponent : Int) : Float :=
  let magnitude := ((Nat.toDigits 10 significand).length : Int) + exponent
  if significand = 0 ∨ magnitude < -400 then 0.0
  else if 400 < magnitude then infinity
  else Float.ofScientific significand (exponent < 0) exponent.natAbs

/-- A number with a point or an exponent as a value. One that is too large is refused, but one that is
too small is the opposite of infinity. -/
def floatValue (negative : Bool) (whole fraction : List Char) (exponent : Int) : Reader Value :=
  let x := nearestFloat (numberOf 10 (whole ++ fraction)) (exponent - fraction.length)
  if negative then pure (.float (-x)) else if x.isInf then failure else pure (.float x)

def fraction : Reader (List Char) :=
  char '.' *> digitGroups Char.isDigit

def exponent : Reader Int := do
  discard (charWhere fun c => c == 'e' || c == 'E')
  let negative ← sign
  let value : Int := numberOf 10 (← digitGroups Char.isDigit)
  pure (if negative then -value else value)

def decimalNumber : Reader Value := do
  let negative ← sign
  let whole ← wholeDigits
  match ← optional fraction, ← optional exponent with
  | none, none =>
      let value : Int := numberOf 10 whole
      integerValue (if negative then -value else value)
  | fraction, exponent => floatValue negative whole (fraction.getD []) (exponent.getD 0)

def wordNumber : Reader Value := do
  let negative ← sign
  (word ['i', 'n', 'f'] *> pure (.float (if negative then -infinity else infinity))) <|>
    (word ['n', 'a', 'n'] *> pure (.float (0.0 / 0.0)))

/-! ## Dates and times -/

/-- Takes a decimal number with a fixed count of digits that lies between two bounds. -/
def fixedNumber (digits low high : Nat) : Reader Nat := fun cs =>
  let value := numberOf 10 (cs.take digits)
  if (cs.take digits).length == digits && (cs.take digits).all Char.isDigit && low ≤ value &&
      value ≤ high then
    some (value, cs.drop digits)
  else none

def daysIn (year month : Nat) : Nat :=
  if month == 2 then
    if year % 4 == 0 && (year % 100 != 0 || year % 400 == 0) then 29 else 28
  else if [4, 6, 9, 11].contains month then 30
  else 31

def date : Reader Unit := do
  let year ← fixedNumber 4 0 9999
  char '-'
  let month ← fixedNumber 2 1 12
  char '-'
  discard (fixedNumber 2 1 (daysIn year month))

def hourAndMinute : Reader Unit := do
  discard (fixedNumber 2 0 23)
  char ':'
  discard (fixedNumber 2 0 59)

/-- Takes a time of day, which may be in a leap second. -/
def timeOfDay : Reader Unit := do
  hourAndMinute
  char ':'
  discard (fixedNumber 2 0 60)
  discard <| optional do
    char '.'
    discard (charWhere Char.isDigit)
    discard (charsWhere Char.isDigit)

def timeOffset : Reader Unit :=
  discard (charWhere fun c => c == 'Z' || c == 'z') <|>
    (discard (charWhere fun c => c == '+' || c == '-') *> hourAndMinute)

def moment : Reader Value :=
  (do
    date
    discard <| optional do
      discard (charWhere fun c => c == 'T' || c == 't' || c == ' ')
      timeOfDay
      discard (optional timeOffset)
    pure .moment) <|>
  (timeOfDay *> pure .moment)

def numberOrMoment : Reader Value :=
  moment <|> specialInteger <|> decimalNumber <|> wordNumber

end CodeAtlas.Toml
