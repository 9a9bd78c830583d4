import TreeDelta.Text.Basic
/-!
# Sixteen bit units

A character outside the basic plane is written as two units, a high and a low one; any other
sign is one unit. `units` gives the units of a sign. `ofPieces` reads a text in which some
signs are given as they are and some by units: a high unit and the low one right after it make
a character, and any other half of a pair stands alone.
-/

namespace TreeDelta.Text

def isHigh (n : Nat) : Bool := 0xd800 ≤ n && n < 0xdc00

def isLow (n : Nat) : Bool := 0xdc00 ≤ n && n < 0xe000

def units (s : Sign) : List Nat :=
  let n := s.code
  if n < 0x10000 then [n] else [0xd800 + (n - 0x10000) / 0x400, 0xdc00 + (n - 0x10000) % 0x400]

def ofPair (high low : Nat) : Sign :=
  .ofCode (0x10000 + (high - 0xd800) * 0x400 + (low - 0xdc00))

/-- A sign as it is, or a unit. -/
inductive Piece where
  | sign (s : Sign)
  | unit (n : Nat)
deriving DecidableEq, Repr

def ofPieces : List Piece → Text
  | [] => []
  | .sign s :: rest => s :: ofPieces rest
  | .unit m :: .unit n :: rest =>
    if isHigh m && isLow n then ofPair m n :: ofPieces rest
    else .ofCode m :: ofPieces (.unit n :: rest)
  | .unit n :: rest => .ofCode n :: ofPieces rest

end TreeDelta.Text
