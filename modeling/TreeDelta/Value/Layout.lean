import TreeDelta.Value.Show
import TreeDelta.Text.Blank
import TreeDelta.Text.Lines
/-!
# Layout of values over lines

`Value.layout` writes a value in lines of at most `Layout.width` characters where that can be
done: what fits on the line stays on it, and a container or long string that does not fit is
written one part a line, its parts aligned. `indent` is the column where the value starts and
`allowance` the room that what follows it on its last line needs.
-/

namespace TreeDelta

namespace Layout

def width : Nat := 80

/-- The text fits between its column and what follows it. -/
def fits (text : Text) (indent allowance : Nat) : Bool :=
  text.length + indent + allowance ≤ width

def spaces (n : Nat) : Text := Text.repeated n (.char ' ')

/-- A part that still waits for its allowance. -/
abbrev Part := Nat → Text

/-- Parts one a line in column `indent`; each but the last is followed by a comma. -/
def stacked (indent allowance : Nat) : List Part → Text
  | [] => ""
  | [part] => part allowance
  | part :: rest => part 1 ++ ",\n" ++ spaces indent ++ stacked indent allowance rest

def bracketed (opening closing : Text) (indent allowance : Nat) (parts : List Part) : Text :=
  opening ++ stacked (indent + 1) (allowance + closing.length) parts ++ closing

/-- The words of a line, each with the blanks after it. -/
def words : Text → List Text
  | [] => []
  | s :: rest =>
    match words rest with
    | [] => [[s]]
    | word :: more =>
      if Text.isBlank s && !(word.head?.any Text.isBlank) then [s] :: word :: more
      else (s :: word) :: more

/-- Packs words into quoted pieces of at most `width - indent` characters; the last piece
leaves room for `allowance`. `held` is the piece being filled. -/
def packed (indent allowance : Nat) (held : Text) : List Text → List Text
  | [] => if held.isEmpty then [] else [Text.quoted held]
  | word :: rest =>
    let candidate := held ++ word
    let room := if rest.isEmpty then allowance else 0
    if fits (Text.quoted candidate) indent room then
      packed indent allowance candidate rest
    else if held.isEmpty then
      packed indent allowance word rest
    else
      Text.quoted held :: packed indent allowance word rest

/-- The quoted pieces of a string: its lines, and of a line too long its words. -/
def pieces (indent allowance : Nat) : List Text → List Text
  | [] => []
  | line :: rest =>
    let room := if rest.isEmpty then allowance else 0
    let whole := Text.quoted line
    (if fits whole indent room then [whole] else packed indent room [] (words line)) ++
      pieces indent allowance rest

def string (text : Text) (indent allowance : Nat) : Text :=
  if text.isEmpty then Text.quoted text
  else match pieces indent allowance (Text.linesKept text) with
    | [_] => Text.quoted text
    | parts => Text.intercalate ("\n" ++ spaces indent) parts

end Layout

mutual
def Key.layout (k : Key) (indent allowance : Nat) : Text :=
  let flat := k.text
  if Layout.fits flat indent allowance then flat
  else match k with
    | .str s => Layout.string s indent allowance
    | .tuple items =>
      Layout.bracketed "(" (if items.length = 1 then ",)" else ")") indent allowance
        (Key.layouts items (indent + 1))
    | _ => flat

def Key.layouts (ks : List Key) (indent : Nat) : List Layout.Part :=
  match ks with
  | [] => []
  | k :: ks => k.layout indent :: Key.layouts ks indent
end

mutual
/-- The value in lines, starting in column `indent`. -/
def Value.layout (v : Value) (indent allowance : Nat) : Text :=
  let flat := v.text true
  if Layout.fits flat indent allowance then flat
  else match v with
    | .str s => Layout.string s indent allowance
    | .list _ items =>
      Layout.bracketed "[" "]" indent allowance (Value.layouts items (indent + 1))
    | .tuple items =>
      Layout.bracketed "(" (if items.length = 1 then ",)" else ")") indent allowance
        (Value.layouts items (indent + 1))
    | .set _ (first :: rest) =>
      Layout.bracketed "\x7b" "\x7d" indent allowance
        ((listedBy id (first :: rest)).map fun k => k.layout (indent + 1))
    | .map _ fields =>
      Layout.bracketed "\x7b" "\x7d" indent allowance
        ((listed (Value.fieldLayouts fields (indent + 1))).map (·.2))
    | _ => flat

def Value.layouts (vs : List Value) (indent : Nat) : List Layout.Part :=
  match vs with
  | [] => []
  | v :: vs => v.layout indent :: Value.layouts vs indent

/-- The entries as parts: the key, and the value behind it. -/
def Value.fieldLayouts (fields : List (Key × Value)) (indent : Nat) :
    List (Key × Layout.Part) :=
  match fields with
  | [] => []
  | (k, v) :: rest =>
    (k, fun allowance =>
      let label := k.text ++ ": "
      label ++ v.layout (indent + label.length) allowance) :: Value.fieldLayouts rest indent
end

/-- The value laid out from the first column. -/
def Value.laidOut (v : Value) : Text := v.layout 0 0

end TreeDelta
