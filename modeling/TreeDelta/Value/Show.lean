import TreeDelta.Value.Order
import TreeDelta.Number.Decimal
import TreeDelta.Text.Quoted
/-!
# Text of values

`Value.text` writes a value on one line so that its type can be told: strings quoted, brackets
by kind of container, records with their field names. With `ordered` the entries of mappings
come in listing order, otherwise as they stand. `Value.plain` is the same
except that a string is itself.
-/

namespace TreeDelta

namespace Key

/-- The place of a key's type among all types, by which keys are listed that do not
compare. -/
def typeRank : Key → Nat
  | null => 0
  | bool _ => 1
  | descend _ => 2
  | op _ _ => 3
  | float _ | nan _ => 4
  | fn _ => 5
  | int _ => 6
  | absent => 7
  | str _ => 8
  | tuple _ => 9

/-- Listed before the other key: as keys compare, and by type where they do not. -/
def listedBefore (a b : Key) : Bool :=
  match lt? a b with
  | some before => before
  | none => a.typeRank < b.typeRank

end Key

def boolText (b : Bool) : Text := if b then "True" else "False"

namespace Show

def bracketed (opening closing : Text) (parts : List Text) : Text :=
  opening ++ Text.intercalate ", " parts ++ closing

/-- A tuple; one element alone keeps a comma. -/
def tuple : List Text → Text
  | [part] => "(" ++ part ++ ",)"
  | parts => bracketed "(" ")" parts

/-- A set; the empty one has a name. -/
def set : List Text → Text
  | [] => "set()"
  | parts => bracketed "\x7b" "\x7d" parts

def map (entries : List (Text × Text)) : Text :=
  bracketed "\x7b" "\x7d" (entries.map fun (k, v) => k ++ ": " ++ v)

/-- A record with named fields. -/
def record (name : String) (fields : List (String × Text)) : Text :=
  bracketed (name ++ "(") ")" (fields.map fun (k, v) => k ++ "=" ++ v)

end Show

mutual
def Key.text : Key → Text
  | .absent => "<object object>"
  | .null => "None"
  | .bool b => boolText b
  | .int i => toString i
  | .float x => x.text .plain
  | .nan _ => DecimalFormat.plain.nan
  | .str s => Text.quoted s
  | .fn _ => "<function>"
  | .tuple items => Show.tuple (Key.texts items)
  | .op kind argument => Show.record "Op" [("kind", kind.text), ("argument", argument.text)]
  | .descend children => Show.record "Descend" [("children", children.text)]

def Key.texts : List Key → List Text
  | [] => []
  | k :: ks => k.text :: Key.texts ks
end

/-- Items in the listing order of their keys. This is no order where types mix, so the sort's
own comparisons decide. -/
def listedBy {α : Type} (key : α → Key) (items : List α) : List α :=
  (Sorting.adaptiveSort (fun a b => some ((key a).listedBefore (key b))) items).getD items

def listed {α : Type} (fields : List (Key × α)) : List (Key × α) := listedBy (·.1) fields

mutual
def Value.text (ordered : Bool) : Value → Text
  | .absent => "<object object>"
  | .null => "None"
  | .bool b => boolText b
  | .int i => toString i
  | .float x => x.text .plain
  | .nan _ => DecimalFormat.plain.nan
  | .str s => Text.quoted s
  | .fn _ => "<function>"
  | .list _ items => Show.bracketed "[" "]" (Value.texts ordered items)
  | .tuple items => Show.tuple (Value.texts ordered items)
  | .set _ items => Show.set (items.map Key.text)
  | .map _ fields =>
    let entries := Value.fieldTexts ordered fields
    Show.map ((if ordered then listed entries else entries).map fun (k, t) => (k.text, t))
  | .node _ kind old new =>
    Show.record "DiffNode" <|
      ("change_type", Value.text false kind) ::
      ((if old = .absent then [] else [("old_value", Value.text false old)]) ++
        (if new = .absent then [] else [("new_value", Value.text false new)]))
  | .op kind argument =>
    Show.record "Op" [("kind", Value.text false kind), ("argument", Value.text false argument)]
  | .descend children => Show.record "Descend" [("children", Value.text false children)]

def Value.texts (ordered : Bool) : List Value → List Text
  | [] => []
  | v :: vs => v.text ordered :: Value.texts ordered vs

def Value.fieldTexts (ordered : Bool) : List (Key × Value) → List (Key × Text)
  | [] => []
  | (k, v) :: rest => (k, v.text ordered) :: Value.fieldTexts ordered rest
end

/-- The value on one line, entries as they stand. -/
def Value.shown (v : Value) : Text := v.text false

/-- A string as it is, any other value as `shown`. -/
def Value.plain : Value → Text
  | .str s => s
  | v => v.shown

/-- A string as it is, any other key as its text. -/
def Key.plain : Key → Text
  | .str s => s
  | k => k.text

end TreeDelta
