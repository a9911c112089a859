/-!
# Shortest decimals of binary fractions

A binary64 number stands for all reals that round to it. Its shortest decimal is the multiple of the
largest power of ten among these reals, and of several such multiples the one nearest to the number.
Which of two equally near ones is taken, and where exponents are used, is left to the format that a
number is written in.

All decisions are made on natural numbers; only the entry point looks at a `Float`.
-/

namespace CodeAtlas.Decimal

/-- The number `digits * 10 ^ exponent`. -/
structure Scaled where
  digits : Nat
  exponent : Int
deriving DecidableEq

/-- A positive binary fraction `mantissa * 2 ^ exponent`. Its neighbour below is half as far away as
the one above if `narrow` holds. -/
structure Binary where
  mantissa : Nat
  exponent : Int
  narrow : Bool
deriving DecidableEq

/-- Which of two multiples is taken that are equally near. -/
inductive Tie where
  | even
  | up
deriving DecidableEq

structure Format where
  tie : Tie
  /-- Whether a number is written by position whose leading digit has a given exponent. -/
  isPositional : Int → Bool

namespace Binary

def compareScaled (d : Nat) (k : Int) (x : Nat) (e : Int) : Ordering :=
  compare (d * Nat.pow 10 k.toNat * Nat.pow 2 (-e).toNat)
    (x * Nat.pow 2 e.toNat * Nat.pow 10 (-k).toNat)

/-- The largest multiple of `10 ^ k` that is at most `x * 2 ^ e`. -/
def floorScaled (k : Int) (x : Nat) (e : Int) : Nat :=
  x * Nat.pow 2 e.toNat * Nat.pow 10 (-k).toNat / (Nat.pow 10 k.toNat * Nat.pow 2 (-e).toNat)

/-- Whether `d * 10 ^ k` rounds to the binary fraction. The ends of the interval do if the mantissa is
even. -/
def covers (b : Binary) (d : Nat) (k : Int) : Bool :=
  let low := 4 * b.mantissa - (if b.narrow then 1 else 2)
  let high := 4 * b.mantissa + 2
  let above := compareScaled d k low (b.exponent - 2)
  let below := compareScaled d k high (b.exponent - 2)
  if b.mantissa % 2 == 0 then above != .lt && below != .gt else above == .gt && below == .lt

/-- The multiple of `10 ^ k` that rounds to the binary fraction and is nearest to it. -/
def nearestMultiple? (b : Binary) (tie : Tie) (k : Int) : Option Nat :=
  let d := floorScaled k (4 * b.mantissa) (b.exponent - 2)
  match decide (0 < d) && b.covers d k, b.covers (d + 1) k with
  | false, false => none
  | true, false => some d
  | false, true => some (d + 1)
  | true, true =>
      match compareScaled (2 * d + 1) k (8 * b.mantissa) (b.exponent - 2) with
      | .lt => some (d + 1)
      | .gt => some d
      | .eq => some (if tie == .even && d % 2 == 0 then d else d + 1)

/-- Tries the powers of ten downwards from `10 ^ k`. -/
def shortestFrom (b : Binary) (tie : Tie) : Nat → Int → Scaled
  | 0, k => ⟨floorScaled k b.mantissa b.exponent, k⟩
  | steps + 1, k =>
      match b.nearestMultiple? tie k with
      | some d => ⟨d, k⟩
      | none => shortestFrom b tie steps (k - 1)

/-- The shortest decimal of the binary fraction. All powers of ten that a binary64 number can need
are tried. -/
def shortest (b : Binary) (tie : Tie) : Scaled :=
  b.shortestFrom tie 700 310

end Binary

inductive Parts where
  | zero
  | finite (value : Binary)
  | infinite
  | notNumber
deriving DecidableEq

/-- The sign of a number (`true` if it is negative) and its parts. -/
def parts (x : Float) : Bool × Parts :=
  let bits := x.toBits.toNat
  let negative := Nat.pow 2 63 ≤ bits
  let field : Nat := bits / Nat.pow 2 52 % Nat.pow 2 11
  let fraction : Nat := bits % Nat.pow 2 52
  let value :=
    if field == 2047 then (if fraction == 0 then .infinite else .notNumber)
    else if field == 0 then
      (if fraction == 0 then .zero else .finite ⟨fraction, -1074, false⟩)
    else
      .finite ⟨Nat.pow 2 52 + fraction, (field : Int) - 1075, fraction == 0 && 1 < field⟩
  (negative, value)

/-! ## Writing -/

def positional (digits : List Char) (point : Int) : List Char :=
  if point ≤ 0 then
    ['0', '.'] ++ List.replicate (-point).toNat '0' ++ digits
  else if digits.length ≤ point.toNat then
    digits ++ List.replicate (point.toNat - digits.length) '0' ++ ['.', '0']
  else
    digits.take point.toNat ++ ['.'] ++ digits.drop point.toNat

/-- The digits with a point behind the first of them, and an exponent with its sign. -/
def scientific (digits : List Char) (exponent : Int) : List Char :=
  digits.take 1 ++ (if digits.length ≤ 1 then [] else ['.'] ++ digits.drop 1) ++
    ['e', if exponent < 0 then '-' else '+'] ++ Nat.toDigits 10 exponent.natAbs

/-- The text of a number by its shortest decimal. -/
def text (format : Format) (x : Float) : String :=
  let (negative, value) := parts x
  let sign := if negative then ['-'] else []
  match value with
  | .notNumber => "NaN"
  | .infinite => String.ofList (sign ++ ['i', 'n', 'f'])
  | .zero => String.ofList (sign ++ ['0', '.', '0'])
  | .finite b =>
      let scaled := b.shortest format.tie
      let digits := Nat.toDigits 10 scaled.digits
      let point := (digits.length : Int) + scaled.exponent
      String.ofList <| sign ++
        if format.isPositional (point - 1) then positional digits point
        else scientific digits (point - 1)

end CodeAtlas.Decimal
