import TreeDelta.Json.Basic
import TreeDelta.Number.Decimal
import TreeDelta.Text.Digits
import TreeDelta.Text.Units
import TreeDelta.Text.Quoted
import TreeDelta.Value.Order
import TreeDelta.Fault
/-!
# Writing JSON

`Value.toJson` turns a value into a document, whose objects can have their members sorted by
key, and `Json.render` lays a document out, on one line or with one item a line. The text is
ASCII.
-/

namespace TreeDelta

namespace Json

/-- JSON writes numbers as they are shown elsewhere, infinities and NaN by their full names. -/
def numberFormat : DecimalFormat :=
  { DecimalFormat.plain with infinity := "Infinity", nan := "NaN" }

def escapedUnits (s : Sign) : List Char :=
  (Text.units s).flatMap fun unit => '\\' :: 'u' :: Text.hexDigits 4 unit

def escapedChar (c : Char) : List Char :=
  if c = '"' ∨ c = '\\' then ['\\', c]
  else if ' ' ≤ c ∧ c ≤ '~' then [c]
  else if c = '\n' then ['\\', 'n']
  else if c = '\r' then ['\\', 'r']
  else if c = '\t' then ['\\', 't']
  else if c = '\x08' then ['\\', 'b']
  else if c = '\x0c' then ['\\', 'f']
  else escapedUnits c

def escapedSign : Sign → List Char
  | .char c => escapedChar c
  | .half h => escapedUnits (.half h)

def quotedText (text : Text) : Text :=
  Text.ofChars ('"' :: text.flatMap escapedSign ++ ['"'])

/-- How items are set apart: on one line, or on lines of their own with `indent` spaces for
every level. -/
structure Layout where
  indent : Option Int

namespace Layout

/-- The start of a line at some depth; nothing on one line. -/
def newline (layout : Layout) (depth : Nat) : Text :=
  match layout.indent with
  | none => ""
  | some n => "\n" ++ Text.repeated (n.toNat * depth) (.char ' ')

def separator (layout : Layout) (depth : Nat) : Text :=
  match layout.indent with
  | none => ", "
  | some _ => "," ++ layout.newline depth

/-- Items of one depth between brackets. -/
def bracketed (layout : Layout) (depth : Nat) (opening closing : Text) :
    List Text → Text
  | [] => opening ++ closing
  | items =>
    opening ++ layout.newline (depth + 1) ++
      Text.intercalate (layout.separator (depth + 1)) items ++ layout.newline depth ++ closing

end Layout

mutual
def render (layout : Layout) (depth : Nat) : Json → Text
  | null => "null"
  | bool b => if b then "true" else "false"
  | int i => toString i
  | float x => x.text numberFormat
  | nan => numberFormat.nan
  | str s => quotedText s
  | arr items => layout.bracketed depth "[" "]" (renderItems layout (depth + 1) items)
  | obj members =>
    layout.bracketed depth "\x7b" "\x7d" (renderMembers layout (depth + 1) members)

def renderItems (layout : Layout) (depth : Nat) : List Json → List Text
  | [] => []
  | j :: rest => render layout depth j :: renderItems layout depth rest

def renderMembers (layout : Layout) (depth : Nat) : List (Text × Json) → List Text
  | [] => []
  | (name, j) :: rest =>
    (quotedText name ++ ": " ++ render layout depth j) :: renderMembers layout depth rest
end

def text (indent : Option Int) (j : Json) : Text := j.render ⟨indent⟩ 0

end Json

/-- A whole number of more digits than are read from text is not written either. -/
def checkDigits (i : Int) : Except Fault Unit :=
  if Text.mostDigits < (toString i.natAbs).length then .error .longNumber else .ok ()

def Key.memberName : Key → Except Fault Text
  | .str s => .ok s
  | .int i => (checkDigits i).map fun _ => toString i
  | .float x => .ok (x.text Json.numberFormat)
  | .nan _ => .ok Json.numberFormat.nan
  | .bool b => .ok (if b then "true" else "false")
  | .null => .ok "null"
  | k => .error (.notSerializable k.toValue.type)

/-- The members of an object under the names that their keys make, sorted by key or as they
stand. -/
def memberOrder (sorted : Bool) (members : List (Key × Json)) :
    Except Fault (List (Text × Json)) :=
  match if sorted then sortFields? members else some members with
  | none => .error .unorderable
  | some members => members.mapM fun (k, j) => k.memberName.map fun name => (name, j)

mutual
/-- The document of a value. -/
def Value.toJson (sorted : Bool) : Value → Except Fault Json
  | .null => .ok .null
  | .bool b => .ok (.bool b)
  | .int i => (checkDigits i).map fun _ => .int i
  | .float x => .ok (.float x)
  | .nan _ => .ok .nan
  | .str s => .ok (.str s)
  | .list _ items => (Value.toJsonItems sorted items).map .arr
  | .tuple items => (Value.toJsonItems sorted items).map .arr
  | .op kind argument => do .ok (.arr [← kind.toJson sorted, ← argument.toJson sorted])
  | .map _ fields => do .ok (.obj (← memberOrder sorted (← Value.toJsonFields sorted fields)))
  | .descend children => do .ok (.arr [← children.toJson sorted])
  | v => .error (.notSerializable v.type)

def Value.toJsonItems (sorted : Bool) : List Value → Except Fault (List Json)
  | [] => .ok []
  | v :: rest => do .ok ((← v.toJson sorted) :: (← Value.toJsonItems sorted rest))

def Value.toJsonFields (sorted : Bool) :
    List (Key × Value) → Except Fault (List (Key × Json))
  | [] => .ok []
  | (k, v) :: rest => do .ok ((k, ← v.toJson sorted) :: (← Value.toJsonFields sorted rest))
end

/-- The number of spaces of an indentation fits into a word. -/
def checkIndent : Option Int → Except Fault Unit
  | none => .ok ()
  | some n =>
    if n < -(Nat.pow 2 63 : Nat) ∨ (Nat.pow 2 63 : Nat) ≤ n then .error .overflow else .ok ()

/-- A value as JSON text, members sorted by key. -/
def jsonText (indent : Option Int) (v : Value) : Except Fault Text := do
  checkIndent indent
  .ok (Json.text indent (← v.toJson true))

/-- A value as the text of a JSON file (`write_json`), which ends in a newline. -/
def writeJson (indent : Option Int) (v : Value) : Except Fault Text :=
  (jsonText indent v).map fun text => text ++ "\n"

end TreeDelta
