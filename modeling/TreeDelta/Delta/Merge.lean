import TreeDelta.Delta.Basic
import TreeDelta.Fault
import TreeDelta.Log
/-!
# Merging deltas

`Delta.merge` joins the delta of an earlier update (`stored`) and that of a later one
(`merging`) into one that leads from the value before both to the value after both. Two changes
at one place follow `ChangeKind.after`; a change that meets a tree swallows it, taking the
missing end from the values before and after; two trees are merged key by key, in the order of
the later one.

A merge that fails stops where it is, so a `MergeFault` also tells what the stored delta had
become by then.
-/

namespace TreeDelta

/-- What two changes in a row amount to: one change, or none at all. -/
inductive Net where
  | undone
  | one (kind : ChangeKind)
deriving DecidableEq, Repr

/-- The net kind of a change and the one that follows it; `none` if the second cannot follow
the first, since an addition needs an empty place and the others a full one. -/
def ChangeKind.after : ChangeKind → ChangeKind → Option Net
  | .add, .change => some (.one .add)
  | .add, .remove => some .undone
  | .change, .change => some (.one .change)
  | .change, .remove => some (.one .remove)
  | .remove, .add => some (.one .change)
  | .add, .add | .change, .add | .remove, .change | .remove, .remove => none

/-- The change changes nothing. -/
def Change.isVoid (c : Change) : Bool :=
  match c.kind? with
  | some .change => c.old.same c.new
  | some .remove => c.old = .absent
  | _ => false

/-- Nothing in place of a delta that changes nothing (`purge`): a void change, an empty tree, or
other data that says nothing. -/
def Delta.purge : Delta → Delta
  | .node c => if c.isVoid then .nothing else .node c
  | .tree [] => .nothing
  | .other v items => if v.isTruthy then .other v items else .nothing
  | d => d

/-- Two changes at one place as one. -/
def Change.merge (x y : Change) : Except Fault Delta :=
  match x.kind?, y.kind? with
  | some k, some l =>
    match k.after l with
    | some .undone => .ok .nothing
    | some (.one .remove) => .ok (Delta.purge (.node (.of .remove x.old .absent)))
    | some (.one kind) => .ok (Delta.purge (.node (.of kind x.old y.new)))
    | none => .error (.mergeOrder x.label y.label)
  | _, _ =>
    if x.label.toKey?.isSome && y.label.toKey?.isSome then .error (.mergeOrder x.label y.label)
    else .error .unhashable

/-- Two deltas at one place that are changes, or nothing, as one (`merge_diff_node`). -/
def Delta.mergeChange : Delta → Delta → Except Fault Delta
  | .nothing, d => .ok d
  | d, .nothing => .ok d
  | .node x, .node y => x.merge y
  | _, _ => .error (.unsupported .map)

/-- The stored change, leading to the value after both updates. -/
def Change.extendTo (x : Change) (new : Value) : Change := { x with new := new }

/-- The later change, leading from the value before both updates; where nothing was before,
it is an addition. -/
def Change.extendFrom (y : Change) (old : Value) : Change :=
  { y with
    old := old
    label := if y.kind? = some .change ∧ old = .absent then .str ChangeKind.add.name else y.label }

/-- Why a merge failed, and what the stored delta, or its entries, had become by then. -/
structure MergeFault (α : Type) where
  fault : Fault
  reached : α

/-- A merged entry of the stored tree: written, or taken out if nothing is left of it. -/
def writeEntry (stored : List (Key × Delta)) (k : Key) : Delta → List (Key × Delta)
  | .nothing => Fields.erase k stored
  | d => Fields.put k d stored

mutual
/-- Merges a later delta into an earlier one (`merge_diff`); `old` is the value before the
earlier update and `new` the one after the later. -/
def Delta.merge (stored : Delta) (old new : Value) : Delta → Except (MergeFault Delta) Delta
  | .nothing => .ok stored
  | .node y =>
    match stored with
    | .nothing => .ok (.node y)
    | .node x =>
      match x.merge y with
      | .ok d => .ok d
      | .error fault => .error ⟨fault, stored⟩
    | _ => .ok (Delta.purge (.node (y.extendFrom old)))
  | .tree later =>
    match stored with
    | .nothing => .ok (.tree later)
    | .node x => .ok (Delta.purge (.node (x.extendTo new)))
    | .tree earlier =>
      match Delta.mergeEntries earlier old new later with
      | .ok entries => .ok (Delta.purge (.tree entries))
      | .error e => .error ⟨e.fault, .tree e.reached⟩
    | .other v _ =>
      if later.isEmpty then .ok (Delta.purge stored) else .error ⟨.unsupported v.type, stored⟩
  | .other v items =>
    match stored with
    | .nothing => .ok (.other v items)
    | .node x => .ok (Delta.purge (.node (x.extendTo new)))
    | _ => .error ⟨.unsupported v.type, stored⟩

/-- Merges the entries of a later tree into those of an earlier one, in order. -/
def Delta.mergeEntries (stored : List (Key × Delta)) (old new : Value) :
    List (Key × Delta) → Except (MergeFault (List (Key × Delta))) (List (Key × Delta))
  | [] => .ok stored
  | (k, d) :: rest =>
    match Delta.merge ((Fields.get? k stored).getD .nothing) (old.child k) (new.child k) d with
    | .ok merged => Delta.mergeEntries (writeEntry stored k merged) old new rest
    | .error e => .error ⟨e.fault, Fields.put k e.reached stored⟩
end

def Fault.mergeLog : Fault → List LogEntry
  | fault@(.mergeOrder _ _) => [⟨.error, fault.message⟩]
  | _ => []

end TreeDelta
