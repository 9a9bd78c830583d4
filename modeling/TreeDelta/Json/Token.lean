import TreeDelta.Json.Basic
import TreeDelta.Text.Digits
import TreeDelta.Text.Units
/-!
# Tokens of JSON text

`Json.lex` cuts a text into tokens and drops the white space between them. A number is the
longest one that starts where it does; a string ends at the first quote that is not escaped
and holds no control characters. Where no token starts, the list ends with `Token.stray`, and
a whole number with too many digits is `Token.long`, so that a reader meets either only if
what comes before is in order.
-/

namespace TreeDelta.Json

inductive Token where
  | openArr | closeArr | openObj | closeObj | comma | colon
  | null
  | bool (b : Bool)
  | int (i : Int)
  | float (x : Double)
  | nan
  | str (s : Text)
  /-- A whole number of more digits than are read. -/
  | long
  /-- The rest of a text that no token starts. -/
  | stray
deriving DecidableEq

def isSpace (s : Sign) : Bool :=
  s = .char ' ' || s = .char '\t' || s = .char '\n' || s = .char '\r'

def hexValue? : Sign → Option Nat
  | .char c =>
    if '0' ≤ c && c ≤ '9' then some (c.toNat - '0'.toNat)
    else if 'a' ≤ c && c ≤ 'f' then some (c.toNat - 'a'.toNat + 10)
    else if 'A' ≤ c && c ≤ 'F' then some (c.toNat - 'A'.toNat + 10)
    else none
  | .half _ => none

/-- The number of four hexadecimal digits. -/
def unitOf? (a b c d : Sign) : Option Nat := do
  some ((((← hexValue? a) * 16 + (← hexValue? b)) * 16 + (← hexValue? c)) * 16 + (← hexValue? d))

def escaped? : Sign → Option Char
  | .char '"' => some '"'
  | .char '\\' => some '\\'
  | .char '/' => some '/'
  | .char 'b' => some '\x08'
  | .char 'f' => some '\x0c'
  | .char 'n' => some '\n'
  | .char 'r' => some '\r'
  | .char 't' => some '\t'
  | _ => none

/-- The pieces of a string up to its closing quote, and what follows that. -/
def stringBody : Text → Option (List Text.Piece × Text)
  | [] => none
  | .char '"' :: rest => some ([], rest)
  | .char '\\' :: .char 'u' :: a :: b :: c :: d :: rest => do
    let unit ← unitOf? a b c d
    let (more, after) ← stringBody rest
    some (.unit unit :: more, after)
  | .char '\\' :: e :: rest => do
    let c ← escaped? e
    let (more, after) ← stringBody rest
    some (.sign c :: more, after)
  | s :: rest =>
    if s.code < 0x20 then none
    else do
      let (more, after) ← stringBody rest
      some (.sign s :: more, after)

def isDigit : Sign → Bool
  | .char c => '0' ≤ c && c ≤ '9'
  | .half _ => false

/-- The number that decimal digits stand for. -/
def ofDigits (digits : Text) : Nat :=
  digits.foldl (fun n d => 10 * n + (d.code - '0'.toNat)) 0

/-- The digits of a whole number, which has no zeros in front. -/
def wholePart : Text → Text × Text
  | .char '0' :: rest => ([.char '0'], rest)
  | text => text.span isDigit

/-- The digits behind a point; none if the point has no digit behind it. -/
def fractionPart : Text → Text × Text
  | .char '.' :: rest =>
    match rest.span isDigit with
    | ([], _) => ([], .char '.' :: rest)
    | (digits, after) => (digits, after)
  | text => ([], text)

/-- A sign that may stand before the digits of an exponent. -/
def signPart : Text → Bool × Text
  | .char '-' :: rest => (true, rest)
  | .char '+' :: rest => (false, rest)
  | text => (false, text)

/-- The exponent behind an `e`; none if that has no digit behind it. -/
def exponentPart (text : Text) : Option Int × Text :=
  match text with
  | e :: rest =>
    if e = .char 'e' || e = .char 'E' then
      let (negative, digits) := signPart rest
      match digits.span isDigit with
      | ([], _) => (none, text)
      | (digits, after) => (some (if negative then -(ofDigits digits) else ofDigits digits), after)
    else (none, text)
  | [] => (none, [])

def wholeToken (negative : Bool) (digits : Text) : Token :=
  if Text.mostDigits < digits.length then .long
  else .int (if negative then -(ofDigits digits) else ofDigits digits)

def numberBody (negative : Bool) (text : Text) : Option (Token × Text) :=
  match wholePart text with
  | ([], _) => none
  | (whole, rest) =>
    let (fraction, rest) := fractionPart rest
    let (exponent, rest) := exponentPart rest
    if fraction.isEmpty && exponent.isNone then some (wholeToken negative whole, rest)
    else
      let scale : Int := exponent.getD 0 - fraction.length
      some (.float (.ofDecimal negative (ofDigits (whole ++ fraction)) scale), rest)

def words : List (Text × Token) :=
  [("null", .null), ("true", .bool true), ("false", .bool false), ("NaN", .nan),
   ("Infinity", .float (.infinite false)), ("-Infinity", .float (.infinite true))]

/-- The word at the start of a text, and what follows it. -/
def wordAt? (text : Text) : Option (Token × Text) :=
  words.findSome? fun (word, token) => (Text.after? word text).map (token, ·)

def nextToken : Text → Option (Token × Text)
  | .char '[' :: rest => some (.openArr, rest)
  | .char ']' :: rest => some (.closeArr, rest)
  | .char '\x7b' :: rest => some (.openObj, rest)
  | .char '\x7d' :: rest => some (.closeObj, rest)
  | .char ',' :: rest => some (.comma, rest)
  | .char ':' :: rest => some (.colon, rest)
  | .char '"' :: rest => do
    let (pieces, after) ← stringBody rest
    some (.str (Text.ofPieces pieces), after)
  | text =>
    match wordAt? text with
    | some found => some found
    | none =>
      match text with
      | .char '-' :: rest => numberBody true rest
      | text => numberBody false text

def lex (text : Text) : List Token :=
  match text with
  | [] => []
  | s :: rest =>
    if isSpace s then lex rest
    else
      match nextToken (s :: rest) with
      | none => [.stray]
      | some (token, after) =>
        if _h : after.length ≤ rest.length then token :: lex after else [.stray]
termination_by text.length

end TreeDelta.Json
