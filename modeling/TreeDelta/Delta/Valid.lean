import TreeDelta.Delta.Basic
import TreeDelta.Fault
/-!
# Well formed deltas

A well formed delta is a change or a tree with at least one entry, every entry well formed
again. An addition has a new value only, a removal an old value only, and a change both.
`Delta.check` reports the first offence in the order of the tree.
-/

namespace TreeDelta

/-- The offence of a single change (`validate_diff_node`), if there is one. -/
def Change.fault? (trail : Trail) (c : Change) : Option DeltaFault :=
  match c.kind? with
  | some .add =>
    if c.old ≠ .absent then some (.addWithOld trail)
    else if c.new = .absent then some (.addWithoutNew trail) else none
  | some .remove =>
    if c.new ≠ .absent then some (.removeWithNew trail)
    else if c.old = .absent then some (.removeWithoutOld trail) else none
  | some .change =>
    if c.old = .absent ∨ c.new = .absent then some (.changeIncomplete trail) else none
  | none => some (.unknownKind trail c.label)

namespace Delta

mutual
def fault? (trail : Trail) : Delta → Option DeltaFault
  | node c => c.fault? trail
  | tree [] => some (.emptyTree trail)
  | tree (e :: es) => faultIn? trail (e :: es)
  | nothing => some (.notDelta trail .null)
  | other v _ => some (.notDelta trail v)

def faultIn? (trail : Trail) : List (Key × Delta) → Option DeltaFault
  | [] => none
  | (k, d) :: rest =>
    match fault? (trail ++ [k.plain]) d with
    | some fault => some fault
    | none => faultIn? trail rest
end

/-- Fails with the first offence in a delta (`validate_diff`). -/
def check (trail : Trail) (d : Delta) : Except Fault Unit :=
  match d.fault? trail with
  | some fault => .error (.delta fault)
  | none => .ok ()

def isValid (d : Delta) : Bool := (d.fault? []).isNone

end Delta

end TreeDelta
