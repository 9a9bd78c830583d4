import TreeDelta.Number.Double
/-!
# Decimal text of a double

`Double.shortest` gives the fewest significant digits that read back as the same double, and
of those the nearest to it. Reading back is part of its definition: a candidate counts only
if `Double.ofDecimal` returns the double, so what it returns is always read back correctly.

`Double.text` lays the digits out.
-/

namespace TreeDelta

/-- A positive decimal number `digits * 10 ^ exponent`. -/
structure Decimal where
  digits : Nat
  exponent : Int
deriving DecidableEq, Repr

namespace Decimal

/-- The number without the zeros its digits end in; `fuel` bounds their count. -/
def trim (fuel : Nat) (d : Decimal) : Decimal :=
  match fuel with
  | 0 => d
  | fuel + 1 => if d.digits % 10 = 0 then trim fuel ⟨d.digits / 10, d.exponent + 1⟩ else d

end Decimal

/-- The decimal exponent of `units`: the greatest `e` with `10 ^ e` at most the magnitude,
searched downward from `start`. -/
def decimalExponent (units : Nat) : Nat → Int → Int
  | 0, start => start
  | fuel + 1, start =>
    let reached :=
      if 0 ≤ start then Nat.pow 10 start.toNat * unitsOfOne ≤ units
      else unitsOfOne ≤ units * Nat.pow 10 (-start).toNat
    if reached then start else decimalExponent units fuel (start - 1)

namespace Double

/-- The decimals of the grid `10 ^ exponent` on either side of `units`, the nearer one first;
of two at one distance the even one. -/
def neighbours (units : Nat) (exponent : Int) : List Decimal :=
  let (num, den) :=
    if 0 ≤ exponent then (units, unitsOfOne * Nat.pow 10 exponent.toNat)
    else (units * Nat.pow 10 (-exponent).toNat, unitsOfOne)
  let low := num / den
  let below : Decimal := ⟨low, exponent⟩
  let above : Decimal := ⟨low + 1, exponent⟩
  match compare (2 * (num % den)) den with
  | .lt => [below, above]
  | .gt => [above, below]
  | .eq => if low % 2 = 0 then [below, above] else [above, below]

def readsBack (rank : Nat) (d : Decimal) : Bool :=
  ofDecimal false d.digits d.exponent == ofRank false rank

/-- All digits of a magnitude; they always read back. -/
def allDigits (units : Nat) : Decimal :=
  ⟨units * Nat.pow 5 1074, -1074⟩

/-- The shortest decimal that reads back as the magnitude of this rank. -/
def shortest (rank : Nat) : Decimal :=
  let units := unitsOfRank rank
  let top := decimalExponent units 700 310
  let grids := (List.range 17).flatMap fun (extra : Nat) => neighbours units (top - extra)
  ((grids.find? (readsBack rank)).getD (allDigits units)).trim 1100

end Double

structure DecimalFormat where
  /-- Decimal exponents from here … -/
  positionalFrom : Int
  /-- … to here are written without an exponent. -/
  positionalTo : Int
  /-- Least number of digits of a written exponent. -/
  exponentDigits : Nat
  infinity : String
  nan : String

/-- Positional from `0.0001` to below `10 ^ 16`, a whole number keeping its `.0`; otherwise an
exponent with its sign and at least two digits. -/
def DecimalFormat.plain : DecimalFormat := ⟨-4, 15, 2, "inf", "nan"⟩

def padLeft (width : Nat) (text : String) : String :=
  String.ofList (List.replicate (width - text.length) '0') ++ text

/-- Digits with a point after the first `whole` of them, zeros standing in for missing ones. -/
def positional (digits : List Char) (whole : Int) : String :=
  if whole ≤ 0 then
    "0." ++ String.ofList (List.replicate (-whole).toNat '0' ++ digits)
  else
    let n := whole.toNat
    let front := digits.take n ++ List.replicate (n - digits.length) '0'
    let back := digits.drop n
    String.ofList front ++ "." ++ (if back.isEmpty then "0" else String.ofList back)

/-- Digits with one before the point, and an exponent. -/
def scientific (format : DecimalFormat) (digits : List Char) (exponent : Int) : String :=
  let mantissa :=
    match digits with
    | [] => ""
    | [d] => String.singleton d
    | d :: rest => String.singleton d ++ "." ++ String.ofList rest
  mantissa ++ "e" ++ (if exponent < 0 then "-" else "+") ++
    padLeft format.exponentDigits (toString exponent.natAbs)

def Decimal.text (format : DecimalFormat) (d : Decimal) : String :=
  let digits := (toString d.digits).toList
  let exponent : Int := d.exponent + digits.length - 1
  if format.positionalFrom ≤ exponent ∧ exponent ≤ format.positionalTo then
    positional digits (exponent + 1)
  else
    scientific format digits exponent

def Double.text (format : DecimalFormat) : Double → String
  | .infinite negative => (if negative then "-" else "") ++ format.infinity
  | .finite negative rank =>
    (if negative then "-" else "") ++
      (if rank.val = 0 then "0.0" else (Double.shortest rank).text format)

end TreeDelta
