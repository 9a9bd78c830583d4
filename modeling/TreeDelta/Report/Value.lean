import TreeDelta.Report.Style
import TreeDelta.Value.Layout
import TreeDelta.Value.SetOrder
import TreeDelta.Fault
/-!
# Reports of values

A value is printed over lines that all start with one lead: mappings as `key: value` lines in
the order of the keys' texts, sequences on one line if they fit and as numbered items
otherwise, strings as they are, and everything else in its layout.
-/

namespace TreeDelta.Report

/-- What is below a key stands this much further in. -/
def indentation : Text := "  "

/-- Lines with their lead stay below this width where that decides the form. -/
def width : Nat := 78

/-- A value in one piece (`format_value`). -/
def scalar (snip : Bool) : Value → Text
  | .str s => if snip then snipped s else s
  | v => v.laidOut

/-- Text, each line with the lead (`pretty_print_multiline`); the last one is ended. -/
def lines (lead text : Text) : Text :=
  Text.joined ((Text.linesKept text).map (lead ++ ·)) ++
    (if text.getLast? = some (.char '\n') then "" else "\n")

def labelLine (lead label : Text) : Text := lead ++ label ++ ":\n"

/-- A label with a text: on one line, or the text's lines below the label. -/
def labelled (lead label text : Text) : Text :=
  if .char '\n' ∈ text then
    labelLine lead label ++
      Text.joined ((Text.linesCut text).map fun line => lead ++ indentation ++ line ++ "\n")
  else
    lead ++ label ++ ": " ++ text ++ "\n"

/-- The layout of a sequence stays on one line behind the lead, and no string in it has a line
feed. -/
def inOneLine (lead layout : Text) : Bool :=
  layout.length + lead.length < width &&
    !(layout.zip (layout.drop 1)).contains (.char '\\', .char 'n')

def byLabel (entries : List (Text × Text)) : Text :=
  Text.joined ((entries.mergeSort fun a b => Text.le a.1 b.1).map (·.2))

def sequence (lead layout items : Text) : Text :=
  if inOneLine lead layout then lead ++ layout ++ "\n" else items

mutual
/-- A value under a label (`pretty_print_item`). -/
def item (snip : Bool) (lead label : Text) (v : Value) : Text :=
  match v with
  | .map _ fields =>
    labelLine lead label ++ byLabel (entries snip (lead ++ indentation) fields)
  | .list _ items =>
    labelLine lead label ++
      sequence (lead ++ indentation) v.laidOut (numbered snip (lead ++ indentation) 0 items)
  | .tuple items =>
    labelLine lead label ++
      sequence (lead ++ indentation) v.laidOut (numbered snip (lead ++ indentation) 0 items)
  | .op kind argument =>
    labelLine lead label ++
      sequence (lead ++ indentation) v.laidOut
        (item snip (lead ++ indentation) "item[0]" kind ++
          item snip (lead ++ indentation) "item[1]" argument)
  | .descend children =>
    labelLine lead label ++
      sequence (lead ++ indentation) v.laidOut
        (item snip (lead ++ indentation) "item[0]" children)
  | _ => labelled lead label (scalar snip v)

def numbered (snip : Bool) (lead : Text) (i : Nat) : List Value → Text
  | [] => ""
  | v :: rest =>
    item snip lead ("item[" ++ toString i ++ "]") v ++ numbered snip lead (i + 1) rest

def entries (snip : Bool) (lead : Text) : List (Key × Value) → List (Text × Text)
  | [] => []
  | (k, v) :: rest => (k.plain, item snip lead k.plain v) :: entries snip lead rest
end

def mapping (snip : Bool) (lead : Text) (fields : List (Key × Value)) : Text :=
  byLabel (entries snip lead fields)

def keysOf (v : Value) : Except Fault (List Key) :=
  match v.elements? with
  | none => .error (.wrongType v.type)
  | some elements =>
    match Value.toKeys? elements with
    | some keys => .ok keys
    | none => .error .unhashable

/-- The items that the elements of a sequence name by their numbers, in the order of their
texts, up to the first that names none. -/
def byElement (snip : Bool) (lead : Text) (v : Value) : List Key → Text × Option Fault
  | [] => ([], none)
  | k :: rest =>
    match itemNamed v (v.sequence?.getD []) k.toValue with
    | .ok (_, entry) =>
      let (more, fault) := byElement snip lead v rest
      (item snip lead k.plain entry ++ more, fault)
    | .error fault => ([], some fault)

/-- A value as a mapping without its entries of some keys (`pretty_print_dict`): what is
printed, and why no more is. A value that is none is taken to map its elements to the items of
that number. -/
def mappingOf (snip : Bool) (lead : Text) (v excluded : Value) : Text × Option Fault :=
  match keysOf v, keysOf excluded with
  | .error fault, _ | .ok _, .error fault => ([], some fault)
  | .ok keys, .ok excluded =>
    match v with
    | .map _ fields =>
      (mapping snip lead (fields.filter fun (k, _) => !excluded.any k.same), none)
    | v =>
      let kept := (SetOrder.distinct keys).filter fun k => !excluded.any k.same
      byElement snip lead v (kept.mergeSort fun a b => Text.le a.plain b.plain)

def list (snip : Bool) (lead : Text) (v : Value) (items : List Value) : Text :=
  sequence lead v.laidOut (numbered snip lead 0 items)

/-- Whatever has elements, as a sequence of them (`pretty_print_list`); what has none still has
a layout. -/
def listOf (snip : Bool) (lead : Text) (v : Value) : Except Fault Text :=
  match v.elements? with
  | some elements => .ok (list snip lead v elements)
  | none =>
    if inOneLine lead v.laidOut then .ok (list snip lead v [])
    else .error (.wrongType v.type)

/-- A value without a label (`pretty_print_value`). -/
def value (snip : Bool) (lead : Text) (v : Value) : Text :=
  match v.fields?, v.sequence? with
  | some [], _ => lead ++ "\x7b\x7d\n"
  | some fields, _ => mapping snip lead fields
  | none, some (first :: rest) => list snip lead v (first :: rest)
  | none, _ => lines lead (scalar snip v)

/-- What a value is with long base64 text cut short. A container of few elements stays as it
is; of all other values only text can be cut. -/
def trimmed (v : Value) : Except Fault Value :=
  match v, v.elements? with
  | .str s, _ => .ok (.str (snipped s))
  | v, some elements =>
    if elements.length < snipLength then .ok v else .error (.unsupported v.type)
  | v, none => .error (.wrongType v.type)

end TreeDelta.Report
