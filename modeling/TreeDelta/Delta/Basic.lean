import TreeDelta.Value.Equality
/-!
# Deltas

A delta says what changed in a value: nothing, one `Change` of the value as a whole, or a tree
that follows the keys of a mapping down to the changes. Data that is no delta is kept as
`other`, together with what its items stand for if it is a sequence, so that it can be refused
where that matters.
-/

namespace TreeDelta

/-- The kinds of change (`ChangeType`). -/
inductive ChangeKind where
  | add | change | remove
deriving DecidableEq, Repr

namespace ChangeKind

def all : List ChangeKind := [add, change, remove]

def name : ChangeKind → Text
  | add => "add"
  | change => "change"
  | remove => "remove"

def ofValue? (v : Value) : Option ChangeKind := all.find? fun kind => v = .str kind.name

theorem ofValue?_name (kind : ChangeKind) : ofValue? (.str kind.name) = some kind := by
  cases kind <;> decide

end ChangeKind

/-- One change at one place (`DiffNode`). The label names its kind; a value that is absent
before or after is `absent`. -/
structure Change where
  label : Value
  old : Value := .absent
  new : Value := .absent
deriving DecidableEq

namespace Change

def of (kind : ChangeKind) (old new : Value) : Change := ⟨.str kind.name, old, new⟩

def kind? (c : Change) : Option ChangeKind := ChangeKind.ofValue? c.label

@[simp] theorem kind?_of (kind : ChangeKind) (old new : Value) :
    (of kind old new).kind? = some kind := ChangeKind.ofValue?_name kind

def equal (c d : Change) : Bool := c.label.equal d.label && c.old.equal d.old && c.new.equal d.new

end Change

inductive Delta where
  | nothing
  | node (change : Change)
  | tree (entries : List (Key × Delta))
  | other (v : Value) (items : List Delta)
deriving Inhabited

namespace Delta

mutual
/-- The delta that a value stands for. -/
def ofValue : Value → Delta
  | .null => nothing
  | .node _ kind old new => node ⟨kind, old, new⟩
  | .map _ fields => tree (ofFields fields)
  | .list id items => other (.list id items) (ofItems items)
  | .tuple items => other (.tuple items) (ofItems items)
  | .op kind argument => other (.op kind argument) [ofValue kind, ofValue argument]
  | .descend children => other (.descend children) [ofValue children]
  | v => other v []

def ofFields : List (Key × Value) → List (Key × Delta)
  | [] => []
  | (k, v) :: rest => (k, ofValue v) :: ofFields rest

def ofItems : List Value → List Delta
  | [] => []
  | v :: rest => ofValue v :: ofItems rest
end

def isNothing : Delta → Bool
  | nothing => true
  | _ => false

def entries : Delta → List (Key × Delta)
  | tree entries => entries
  | _ => []

mutual
/-- Equal in content, regardless of the order of keys. -/
def equal : Delta → Delta → Bool
  | nothing, nothing => true
  | node c, node d => c.equal d
  | tree ds, tree es => ds.length = es.length && equalEntries ds es
  | other v _, other w _ => v.equal w
  | _, _ => false

/-- Every entry of the first tree has an equal one in the second. -/
def equalEntries : List (Key × Delta) → List (Key × Delta) → Bool
  | [], _ => true
  | (k, d) :: rest, es =>
    (match Fields.get? k es with
      | some e => equal d e
      | none => false) && equalEntries rest es
end

mutual
/-- The first piece of data in it that is no delta, if there is one. -/
def stray? : Delta → Option Value
  | nothing => none
  | node _ => none
  | tree entries => strayIn? entries
  | other v _ => some v

def strayIn? : List (Key × Delta) → Option Value
  | [] => none
  | (_, d) :: rest => (stray? d).or (strayIn? rest)
end

def child (d : Delta) (k : Key) : Delta := (Fields.get? k d.entries).getD nothing

def at_ (d : Delta) (path : List Key) : Delta := path.foldl child d

end Delta

/-- The value below a key (`_child_value`): absent unless the value is a mapping that holds the
key. -/
def Value.child (v : Value) (k : Key) : Value :=
  ((v.fields?.getD []) |> Fields.get? k).getD .absent

def Value.at_ (v : Value) (path : List Key) : Value := path.foldl child v

end TreeDelta
