import TreeDelta.Text.Basic
import TreeDelta.Text.Printable
/-!
# Quoted texts

`quoted` writes a text between quotes so that every sign is visible: single quotes, unless the
text holds single quotes and no double ones. `hexDigits` is shared by all the notations that
write a code in hexadecimal.
-/

namespace TreeDelta.Text

/-- The lower case hexadecimal digits of a number, at least `width` of them. -/
def hexDigits (width : Nat) (n : Nat) : List Char :=
  let digits := Nat.toDigits 16 n
  List.replicate (width - digits.length) '0' ++ digits

/-- A code as a backslash, a letter for the width, and two, four or eight digits. -/
def codeEscape (code : Nat) : List Char :=
  if code < 0x100 then '\\' :: 'x' :: hexDigits 2 code
  else if code < 0x10000 then '\\' :: 'u' :: hexDigits 4 code
  else '\\' :: 'U' :: hexDigits 8 code

def quotedChar (quote c : Char) : List Char :=
  if c = quote ∨ c = '\\' then ['\\', c]
  else if c = '\n' then ['\\', 'n']
  else if c = '\r' then ['\\', 'r']
  else if c = '\t' then ['\\', 't']
  else if isPrintable c then [c]
  else codeEscape c.toNat

/-- One sign of a text quoted with `quote`; a half is never shown as it is. -/
def quotedSign (quote : Char) : Sign → List Char
  | .char c => quotedChar quote c
  | .half h => codeEscape (Sign.half h).code

/-- The quote mark for a text: the single one, unless only double ones are free. -/
def quoteFor (text : Text) : Char :=
  if .char '\'' ∈ text ∧ .char '"' ∉ text then '"' else '\''

/-- The text between quotes, with escapes for what is not printable. -/
def quoted (text : Text) : Text :=
  let quote := quoteFor text
  ofChars (quote :: text.flatMap (quotedSign quote) ++ [quote])

end TreeDelta.Text
