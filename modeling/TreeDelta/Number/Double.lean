/-!
# Double precision numbers

A double is held as its sign and its *rank*: the finite magnitudes, in increasing order, are
numbered 0, 1, 2, …. So every rank below `rankLimit` is a number, and no two ranks are the
same one.

Every finite magnitude is a whole multiple of the smallest positive one, `2 ^ -1074`. That
step is the unit of all arithmetic here: `unitsOfRank` counts the units of a rank exactly, and
`Double.ofRatio` finds the rank nearest to a quotient of units, a tie going to the even rank.
-/

namespace TreeDelta

/-- How many doubles share a step: the values of a 52 bit fraction. -/
def fractionCount : Nat := Nat.pow 2 52

/-- Finite magnitudes have smaller ranks; this one stands where infinity would. -/
def rankLimit : Nat := 2047 * fractionCount

def unitsOfOne : Nat := Nat.pow 2 1074

/-- A double other than NaN. -/
inductive Double where
  | finite (negative : Bool) (rank : Fin rankLimit)
  | infinite (negative : Bool)
deriving DecidableEq, Repr

/-- The magnitude of a rank in units: 52 bits of the rank are the fraction, the rest counts
how often the step has doubled. -/
def unitsOfRank (rank : Nat) : Nat :=
  if rank < 2 * fractionCount then rank
  else (fractionCount + rank % fractionCount) * Nat.pow 2 (rank / fractionCount - 1)

/-- The greatest rank whose magnitude is at most `units`. -/
def rankBelow (units : Nat) : Nat :=
  if units < 2 * fractionCount then units
  else (units.log2 - 52) * fractionCount + units / Nat.pow 2 (units.log2 - 52)

/-- The rank nearest to `num / den` units; a tie goes to the even rank. -/
def nearestRank (num den : Nat) : Nat :=
  let low := rankBelow (num / den)
  match compare (2 * num) ((unitsOfRank low + unitsOfRank (low + 1)) * den) with
  | .lt => low
  | .gt => low + 1
  | .eq => if low % 2 = 0 then low else low + 1

namespace Double

/-- The double of a sign and a rank, infinite from `rankLimit` on. -/
def ofRank (negative : Bool) (rank : Nat) : Double :=
  if h : rank < rankLimit then finite negative ⟨rank, h⟩ else infinite negative

def ofRatio (negative : Bool) (num den : Nat) : Double :=
  ofRank negative (nearestRank num den)

/-- The double nearest to a signed number of units. -/
def ofUnits (units : Int) : Double :=
  ofRatio (units < 0) units.natAbs 1

/-- The double nearest to `digits * 10 ^ exponent`. An exponent far outside the range of
doubles is settled without forming the power. -/
def ofDecimal (negative : Bool) (digits : Nat) (exponent : Int) : Double :=
  if digits = 0 then ofRank negative 0
  else if 310 < exponent then infinite negative
  else if exponent < -(400 + digits.log2 : Int) then ofRank negative 0
  else if 0 ≤ exponent then ofRatio negative (digits * Nat.pow 10 exponent.toNat * unitsOfOne) 1
  else ofRatio negative (digits * unitsOfOne) (Nat.pow 10 (-exponent).toNat)

/-- The exact value of a finite double in units, with its sign. -/
def units? : Double → Option Int
  | finite false rank => some (unitsOfRank rank)
  | finite true rank => some (-(unitsOfRank rank : Int))
  | infinite _ => none

/-- The whole number that a double equals, if there is one. -/
def toInt? (x : Double) : Option Int :=
  x.units?.bind fun units =>
    if units % unitsOfOne = 0 then some (units / unitsOfOne) else none

/-- One more, rounded. -/
def succ (x : Double) : Double :=
  match x.units? with
  | some units => ofUnits (units + unitsOfOne)
  | none => x

/-- Twice the number, rounded; the sign stays, also that of a zero. -/
def twice : Double → Double
  | finite negative rank => ofRatio negative (2 * unitsOfRank rank) 1
  | infinite negative => infinite negative

end Double

/-- The exact value of a number, counted in units, or an infinity. -/
inductive Exact where
  | finite (units : Int)
  | infinite (negative : Bool)
deriving DecidableEq, Repr

namespace Exact

def ofInt (i : Int) : Exact := finite (i * unitsOfOne)

def ofDouble (x : Double) : Exact :=
  match x with
  | .infinite negative => infinite negative
  | .finite .. => finite (x.units?.getD 0)

def compare : Exact → Exact → Ordering
  | infinite true, infinite true => .eq
  | infinite true, _ => .lt
  | _, infinite true => .gt
  | infinite false, infinite false => .eq
  | infinite false, _ => .gt
  | _, infinite false => .lt
  | finite a, finite b => Ord.compare a b

end Exact

end TreeDelta
