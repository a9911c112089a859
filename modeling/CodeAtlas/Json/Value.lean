import CodeAtlas.Decimal.Shortest
import CodeAtlas.Mismatch

/-!
# JSON values

The values that a JSON text denotes. Numbers keep apart integers and decimals, because a decimal is
never read as an integer, even if it stands for one.
-/

namespace CodeAtlas.Json

inductive Number where
  | integer (value : Int)
  /-- The number `significand * 10 ^ exponent` or its opposite. -/
  | decimal (negative : Bool) (significand : Nat) (exponent : Int)
deriving DecidableEq

namespace Number

/-- The quotient or product of a float and a power of ten, taken in steps of at most `10 ^ 308`. A
product beyond the range of floats is refused. -/
def scale : Nat → Float → Int → Option Float
  | 0, x, _ => some x
  | steps + 1, x, exponent =>
      if 0 ≤ exponent then
        if exponent ≤ 308 then
          let product := x * Float.ofScientific 1 false exponent.toNat
          if product.isInf then none else some product
        else if x == 0.0 then some x
        else none
      else if -308 ≤ exponent then some (x / Float.ofScientific 1 false (-exponent).toNat)
      else if x == 0.0 then some x
      else scale steps (x / 1e308) (exponent + 308)

/-- The float that a number with a significand of at most 64 bits is read as, if it has one. -/
def toFloat? : Number → Option Float
  | .integer value => some (Float.ofInt value)
  | .decimal negative significand exponent =>
      (scale 8 significand.toUInt64.toFloat exponent).map fun x => if negative then -x else x

/-- Decimals are shown by position if their leading digit has an exponent from -5 to 15. Of two
shortest decimals that are equally near the even one is shown. -/
def decimalFormat : Decimal.Format :=
  ⟨.even, fun exponent => -5 ≤ exponent && exponent ≤ 15⟩

def found : Number → Mismatch.Found
  | .integer value => .integer value
  | n@(.decimal ..) => .decimal ((n.toFloat?.map (Decimal.text decimalFormat)).getD "inf")

end Number

/-- A JSON value. The fields of an object keep their order. -/
inductive Value where
  | null
  | bool (value : Bool)
  | number (value : Number)
  | text (value : String)
  | array (items : List Value)
  | object (fields : List (String × Value))

namespace Value

def nat (n : Nat) : Value :=
  .number (.integer n)

def orNull {α : Type} (encode : α → Value) : Option α → Value
  | none => .null
  | some x => encode x

def found : Value → Mismatch.Found
  | .null => .nothing
  | .bool value => .boolean value
  | .number value => value.found
  | .text value => .text value
  | .array _ => .sequence
  | .object _ => .map

def field? (name : String) : Value → Option Value
  | .object fields => fields.lookup name
  | _ => none

end Value

end CodeAtlas.Json
