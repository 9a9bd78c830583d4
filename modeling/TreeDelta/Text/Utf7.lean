import TreeDelta.Text.Units
/-!
# UTF-7

UTF-7 writes plain characters as they are and everything else as runs of base 64 digits. A run
begins with a plus sign and holds the bits of its sixteen bit units; a hyphen ends it where the
next character could be taken for a part of it. A plus sign outside a run is written `+-`.
-/

namespace TreeDelta.Text.Utf7

/-- Written as it is: blanks, and the visible ASCII characters but for `+`, `\` and `~`. -/
def isPlain (s : Sign) : Bool :=
  match s with
  | .char c =>
    c = '\t' || c = '\n' || c = '\r' ||
      (' ' ≤ c && c < '~' && c ≠ '+' && c ≠ '\\')
  | .half _ => false

def digit (n : Nat) : Char :=
  if n < 26 then Char.ofNat ('A'.toNat + n)
  else if n < 52 then Char.ofNat ('a'.toNat + (n - 26))
  else if n < 62 then Char.ofNat ('0'.toNat + (n - 52))
  else if n = 62 then '+'
  else '/'

/-- The digits of the bits of some units, filled up with zeros. -/
def digits (units : List Nat) : List Char :=
  let bits := 16 * units.length
  let count := (bits + 5) / 6
  let number := units.foldl (fun n unit => n * 0x10000 + unit) 0 * Nat.pow 2 (6 * count - bits)
  (List.range count).map fun i => digit (number / Nat.pow 64 (count - 1 - i) % 64)

/-- The character would be read as part of a run that stands before it. -/
def continuesRun (c : Char) : Bool := c.isAlphanum || c = '+' || c = '/' || c = '-'

def closed (run : List Nat) (rest : List Char) : List Char :=
  if run = [] then rest
  else
    let ended := if rest.head?.all continuesRun then '-' :: rest else rest
    '+' :: digits run ++ ended

/-- The characters of a text behind an open run of units. -/
def encodeAfter (run : List Nat) : Text → List Char
  | [] => closed run []
  | s :: text =>
    match char? s with
    | some '+' =>
      if run = [] then '+' :: '-' :: encodeAfter [] text
      else encodeAfter (run ++ units s) text
    | some c =>
      if isPlain s then closed run (c :: encodeAfter [] text)
      else encodeAfter (run ++ units s) text
    | none => encodeAfter (run ++ units s) text

def encode (text : Text) : List Char := encodeAfter [] text

end TreeDelta.Text.Utf7
