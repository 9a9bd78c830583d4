import TreeDelta.Text.Blank
/-!
# Whole numbers in text

`readInt?` reads a whole number as a person writes it: blanks around it, a sign, and digits of
any script, with single underscores between them. A number of more than `mostDigits` digits is
not read.
-/

namespace TreeDelta.Text

/-- The zeros of the scripts that have decimal digits; the nine others follow each. -/
def digitZeros : Array Nat := #[
  0x30, 0x660, 0x6f0, 0x7c0, 0x966, 0x9e6, 0xa66, 0xae6, 0xb66, 0xbe6, 0xc66, 0xce6, 0xd66,
  0xde6, 0xe50, 0xed0, 0xf20, 0x1040, 0x1090, 0x17e0, 0x1810, 0x1946, 0x19d0, 0x1a80, 0x1a90,
  0x1b50, 0x1bb0, 0x1c40, 0x1c50, 0xa620, 0xa8d0, 0xa900, 0xa9d0, 0xa9f0, 0xaa50, 0xabf0, 0xff10,
  0x104a0, 0x10d30, 0x11066, 0x110f0, 0x11136, 0x111d0, 0x112f0, 0x11450, 0x114d0, 0x11650,
  0x116c0, 0x11730, 0x118e0, 0x11950, 0x11c50, 0x11d50, 0x11da0, 0x16a60, 0x16ac0, 0x16b50,
  0x1d7ce, 0x1d7d8, 0x1d7e2, 0x1d7ec, 0x1d7f6, 0x1e140, 0x1e2f0, 0x1e950, 0x1fbf0]

def digitValue? (s : Sign) : Option Nat :=
  let n := s.code
  (digitZeros.find? fun first => first ≤ n && n < first + 10).map fun first => n - first

/-- Numbers of more digits are not read from text. -/
def mostDigits : Nat := 4300

/-- The number of digits between which single underscores may stand; `value` is what comes
before them. -/
def readDigits? (value : Nat) : Text → Option Nat
  | [] => some value
  | .char '_' :: s :: rest => do readDigits? (10 * value + (← digitValue? s)) rest
  | s :: rest => do readDigits? (10 * value + (← digitValue? s)) rest

/-- The digits of a number, of which there is at least one and which start with one. -/
def readNat? (text : Text) : Option Nat :=
  match text with
  | [] => none
  | s :: rest =>
    if mostDigits < text.countP (· ≠ .char '_') then none
    else do readDigits? (← digitValue? s) rest

def readInt? (text : Text) : Option Int :=
  match trimmed text with
  | .char '-' :: rest => (readNat? rest).map fun n => -(n : Int)
  | .char '+' :: rest => (readNat? rest).map fun n => (n : Int)
  | digits => (readNat? digits).map fun n => (n : Int)

end TreeDelta.Text
