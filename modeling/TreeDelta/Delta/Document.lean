import TreeDelta.Delta.Listing
/-!
# The document form of a delta

A delta as plain data: null for nothing, one entry for a change, and a list of entries with
their keys for a tree. An entry is an object; its `op` is the kind of change, or `patch` for a
tree below, whose entries stand under `diff`. `Delta.toDocument` writes this form and
`Delta.ofDocument` reads it, refusing everything else.
-/

namespace TreeDelta

namespace Document

def op : Key := .str "op"
def key : Key := .str "key"
def old : Key := .str "old_value"
def new : Key := .str "new_value"
def diff : Key := .str "diff"

def patch : Value := .str "patch"

/-- A field that is left out when its value is absent. -/
def optional (k : Key) (v : Value) : List (Key × Value) := if v = .absent then [] else [(k, v)]

/-- The entry of a change (`_node_to_json`); `under` is its key field, if it has one. -/
def entryOf (id : Ident) (under : List (Key × Value)) (c : Change) : Value :=
  .map id ((op, c.label) :: under ++ optional old c.old ++ optional new c.new)

/-- The change of an entry (`_node_from_json`). -/
def changeOf (fields : List (Key × Value)) : Except Fault Change :=
  let label := (Fields.get? op fields).getD .null
  match ChangeKind.ofValue? label with
  | some _ =>
    .ok ⟨label, (Fields.get? old fields).getD .absent, (Fields.get? new fields).getD .absent⟩
  | none => .error (.delta (.invalidOp label))

end Document

open Document

namespace Delta

mutual
/-- The delta as a document. `run` tells the containers of this document from others. Data that
is no delta makes an empty list; `Delta.asDocument` lets only empty data come to that. -/
def toDocument (run : Nat) (place : List Key) : Delta → Value
  | nothing => .null
  | node c => entryOf ⟨run, place⟩ [] c
  | tree entries =>
    .list ⟨run, place⟩ ((sortedFields (toEntries run place 0 entries)).map (·.2))
  | other _ _ => .list ⟨run, place⟩ []

def toEntries (run : Nat) (place : List Key) (i : Nat) : List (Key × Delta) → List (Key × Value)
  | [] => []
  | (k, d) :: rest =>
    let id : Ident := ⟨run, .int i :: place⟩
    let entry := match d with
      | node c => entryOf id [(key, k.toValue)] c
      | d => .map id [(op, patch), (key, k.toValue), (diff, toDocument run (.int 0 :: .int i :: place) d)]
    (k, entry) :: toEntries run place (i + 1) rest
end

/-- The delta as a document (`to_json_diff`), or the first fault that a walk over it meets. -/
def asDocument (run : Nat) (d : Delta) : Except Fault Value := do
  let _ ← d.changes
  .ok (d.toDocument run [])

mutual
/-- The delta of a document (`from_json_diff`). -/
def ofDocument : Value → Except Fault Delta
  | .null => .ok nothing
  | .map _ fields => (changeOf fields).map node
  | .list _ items => do
    let entries ← ofEntries [] items
    .ok (if entries.isEmpty then nothing else tree entries)
  | v => .error (.delta (.notDocument v.type))

/-- The entries of a list, added to those before them. -/
def ofEntries (before : List (Key × Delta)) : List Value → Except Fault (List (Key × Delta))
  | [] => .ok before
  | .map id fields :: rest =>
    match (Fields.get? key fields).map Value.toKey? with
    | none => .error (.delta (.entryWithoutKey (.map id fields)))
    | some none => .error .unhashable
    | some (some k) =>
      if Fields.has k before then .error (.delta (.duplicateKey k))
      else if Fields.get? op fields = some patch then
        match patchOf fields with
        | none => .error (.delta (.patchWithoutList k))
        | some below => do
          let entries ← below
          if entries.isEmpty then .error (.delta (.emptyPatch k))
          else ofEntries (before ++ [(k, tree entries)]) rest
      else do
        let c ← changeOf fields
        ofEntries (before ++ [(k, node c)]) rest
  | v :: _ => .error (.delta (.entryWithoutKey v))

/-- The entries of the tree in a patch entry, if its `diff` is a list. -/
def patchOf : List (Key × Value) → Option (Except Fault (List (Key × Delta)))
  | [] => none
  | (k, v) :: rest =>
    if diff.same k then
      match v with
      | .list _ items => some (ofEntries [] items)
      | _ => none
    else patchOf rest
end

end Delta

end TreeDelta
