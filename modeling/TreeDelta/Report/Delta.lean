import TreeDelta.Report.Value
import TreeDelta.Delta.Listing
/-!
# Reports of deltas

One block for every change: what happened and where, then the old value behind the removal
mark and the new one behind the addition mark. The summary is one line of counts.
-/

namespace TreeDelta.Report

def headline (style : Style) (action path : Text) : Text :=
  style.marks.info ++ action ++ " " ++ path ++ ":" ++ style.marks.reset ++ "\n"

/-- What a change of value says about types: nothing, unless both are there and differ. -/
def typeChange (old new : Value) : Text :=
  if old ≠ .null ∧ new ≠ .null ∧ old.type ≠ new.type then
    " (type changed from " ++ old.type.text ++ " to " ++ new.type.text ++ ")"
  else ""

/-- The block of a change (`pretty_print_diff_node`); a change of no known kind has none. -/
def block (style : Style) (path : Text) (c : Change) : Except Fault Text :=
  let removed := value style.snip style.marks.remove c.old
  let added := value style.snip style.marks.add c.new
  let blockEnd := "\n" ++ style.marks.reset
  match c.kind? with
  | some .add => .ok (headline style "added" path ++ added ++ blockEnd)
  | some .remove => .ok (headline style "removed" path ++ removed ++ blockEnd)
  | some .change =>
    .ok (headline style ("changed" ++ typeChange c.old c.new) path ++ removed ++ added ++ blockEnd)
  | none => .error (.delta (.unprintableKind c.label))

/-- Reports one after the other, up to the first that cannot be finished. -/
def inTurn : List (Text × Option Fault) → Text × Option Fault
  | [] => ([], none)
  | (text, none) :: rest =>
    let (more, fault) := inTurn rest
    (text ++ more, fault)
  | (text, some fault) :: _ => (text, some fault)

def below (path : Text) (k : Key) : Text := path ++ "/" ++ k.plain

/-- The report of data that is no delta (its elements are taken for keys) in the order of the
elements' texts. `items` are the reports of its items, each as it would be at a path. -/
def stray (path : Text) (v : Value) (items : List (Text → Text × Option Fault)) :
    Text × Option Fault :=
  match v.elements? with
  | some elements =>
    let elements := elements.mergeSort fun a b => Text.le a.plain b.plain
    inTurn (elements.map fun element =>
      match itemNamed v items element with
      | .ok (k, report) => report (below path k)
      | .error fault => ([], some fault))
  | none => ([], some (.wrongType v.type))

mutual
/-- The report of a delta at a path (`pretty_print_diff`): what is printed, and why no more is.
Keys are taken in the order of their texts. A path without a text is printed as a slash. -/
def delta (style : Style) (path : Text) : Delta → Text × Option Fault
  | .nothing => ([], none)
  | .node c =>
    match block style (if path = [] then "/" else path) c with
    | .ok text => (text, none)
    | .error fault => ([], some fault)
  | .tree entries =>
    let reports := (deltasBelow style path entries).mergeSort fun a b => Text.le a.1.plain b.1.plain
    inTurn (reports.map (·.2))
  | .other v items => stray path v (deltasOf style items)

def deltasBelow (style : Style) (path : Text) :
    List (Key × Delta) → List (Key × (Text × Option Fault))
  | [] => []
  | (k, d) :: rest => (k, delta style (below path k) d) :: deltasBelow style path rest

def deltasOf (style : Style) : List Delta → List (Text → Text × Option Fault)
  | [] => []
  | d :: rest => (fun path => delta style path d) :: deltasOf style rest
end

/-- The line of counts (`pretty_print_diff_summary`). -/
def summary (style : Style) (d : Delta) : Except Fault Text :=
  d.count.map fun n =>
    style.marks.info ++ toString n.added ++ " added, " ++ toString n.changed ++ " changed, " ++
      toString n.removed ++ " removed" ++ style.marks.reset ++ "\n"

end TreeDelta.Report
