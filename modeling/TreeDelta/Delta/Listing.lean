import TreeDelta.Delta.Basic
import TreeDelta.Value.Show
import TreeDelta.Fault
/-!
# Listing the changes of a delta

`Delta.steps` walks over a delta depth first and meets its changes, each with its path; an
`Arrangement` says in which order the keys of a tree are taken. The walk also meets the faults
of data that is no delta, in their places, and whoever uses the steps stops at the first.

`Delta.changes` lists every change, the keys of each tree sorted if they compare and as they
stand otherwise. `Delta.count` counts them by kind.
-/

namespace TreeDelta

/-- The entries sorted by key (`_sorted_keys`) if all keys compare, otherwise as they stand. -/
def sortedFields {α : Type} (fields : List (Key × α)) : List (Key × α) :=
  (sortFields? fields).getD fields

/-- The values sorted if they are keys and all compare, otherwise as they stand. -/
def sortedValues (vs : List Value) : List Value :=
  match (Value.toKeys? vs).bind sortKeys? with
  | some keys => keys.map Key.toValue
  | none => vs

/-- An order of the entries of a mapping, and of the elements of anything else. -/
structure Arrangement where
  fields : {α : Type} → List (Key × α) → List (Key × α)
  elements : List Value → List Value

def Arrangement.sorted : Arrangement := ⟨sortedFields, sortedValues⟩

/-- What a walk meets: a change or a fault, and the path to it. -/
abbrev Step := List Key × Except Fault Change

namespace Delta

/-- Steps below a key, seen from above it. -/
def under (k : Key) (steps : List Step) : List Step :=
  steps.map fun (path, met) => (k :: path, met)

/-- The steps over data that is no delta: its elements are taken for keys. `items` are the
steps of its items. -/
def straySteps (a : Arrangement) (v : Value) (items : List (List Step)) : List Step :=
  match v.elements? with
  | some elements => (a.elements elements).flatMap fun element =>
      match itemNamed v items element with
      | .ok (k, below) => under k below
      | .error f => [([], .error f)]
  | none => [([], .error (.wrongType v.type))]

mutual
/-- All that a walk over the delta meets. -/
def steps (a : Arrangement) : Delta → List Step
  | node c => [([], .ok c)]
  | tree entries => (a.fields (stepsIn a entries)).flatMap fun (k, below) => under k below
  | nothing => []
  | other v items => straySteps a v (stepsOf a items)

def stepsIn (a : Arrangement) : List (Key × Delta) → List (Key × List Step)
  | [] => []
  | (k, d) :: rest => (k, steps a d) :: stepsIn a rest

def stepsOf (a : Arrangement) : List Delta → List (List Step)
  | [] => []
  | d :: rest => steps a d :: stepsOf a rest
end

/-- Every change of the delta with its path (`iter_diff_nodes`). -/
def changes (d : Delta) : Except Fault (List (List Key × Change)) :=
  (d.steps .sorted).mapM fun (path, met) => met.map (path, ·)

mutual
/-- The delta on one line. -/
def shown : Delta → Text
  | nothing => Value.null.shown
  | node c => (Value.node default c.label c.old c.new).shown
  | tree entries => Show.map (shownIn entries)
  | other v _ => v.shown

def shownIn : List (Key × Delta) → List (Text × Text)
  | [] => []
  | (k, d) :: rest => (k.text, shown d) :: shownIn rest
end

end Delta

structure Counts where
  added : Nat := 0
  changed : Nat := 0
  removed : Nat := 0
deriving DecidableEq, Repr

namespace Counts

def total (n : Counts) : Nat := n.added + n.changed + n.removed

def count (n : Counts) : ChangeKind → Counts
  | .add => { n with added := n.added + 1 }
  | .change => { n with changed := n.changed + 1 }
  | .remove => { n with removed := n.removed + 1 }

@[simp] theorem total_count (n : Counts) (kind : ChangeKind) :
    (n.count kind).total = n.total + 1 := by
  cases kind <;> simp [count, total] <;> omega

/-- Counts one change; one of no known kind cannot be counted. -/
def tally (n : Counts) (c : Change) : Except Fault Counts :=
  match c.kind? with
  | some kind => .ok (n.count kind)
  | none => .error (if c.label.toKey?.isSome then .unknownName else .unhashable)

end Counts

/-- Counts the changes of a delta (`count_changes`). -/
def Delta.count (d : Delta) : Except Fault Counts :=
  (d.steps .sorted).foldlM (fun n (_, met) => do n.tally (← met)) {}

end TreeDelta
