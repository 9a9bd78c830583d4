import TreeDelta.Delta.Merge
import TreeDelta.Value.Cells
/-!
# Merging deltas with shared parts

A merge writes into the stored delta: a stored change is led on to the latest value, and the
entries of a stored tree are replaced and taken out. If such a change or tree stands at several
places, in the stored delta or in anything else that the merge is given, then what is written
at one place shows at all of them, even while the merge is going on.

`Value.mergeDeltas` merges deltas that are given as values and follows the writes. Where nothing
that is written into has a second place, it comes to `Delta.merge`
(`Value.mergeDeltas_of_unshared`).
-/

namespace TreeDelta

namespace Shared

open Writing

/-- The value of a merged change, which is new. -/
def ofMerged (run : Nat) : Delta → Writing Value
  | .node c => do return .node (← fresh run) c.label c.old c.new
  | _ => return .null

/-- The value, or null if the delta that it stands for says nothing. -/
def purged (v : Value) : Writing Value := do
  return if (Delta.ofValue (← current v)).purge.isNothing then .null else v

def storedBelow (stored : Value) (k : Key) : Writing Value := do
  match ← current stored with
  | .map _ fields => return (Fields.get? k fields).getD .null
  | v => throw (.unsupported v.type)

/-- Writes a merged entry of the stored delta, or takes it out if nothing is left of it. -/
def writeBelow (stored : Value) (k : Key) (merged : Value) : Writing Unit := do
  match ← current stored with
  | .map id fields =>
    write id
      (.map id (if merged = .null then Fields.erase k fields else Fields.put k merged fields))
  | v => throw (.unsupported v.type)

/-- Merges a later delta into an earlier one (`merge_diff`). `fuel` bounds the depth. -/
def merge (run : Nat) : Nat → Value → Value → Value → Value → Writing Value
  | 0, _, _, _, _ => throw .changedMeanwhile
  | fuel + 1, stored, merging, old, new => do
    match ← current stored, ← current merging with
    | .null, _ => return merging
    | _, .null => return stored
    | .node _ label before after, .node _ laterLabel laterBefore laterAfter =>
      let x : Change := ⟨label, before, after⟩
      match x.merge ⟨laterLabel, laterBefore, laterAfter⟩ with
      | .ok d => ofMerged run d
      | .error f => throw f
    | .node id label before _, _ =>
      write id (.node id label before new)
      purged stored
    | _, .node _ label before after =>
      let y : Change := ⟨label, before, after⟩
      ofMerged run (Delta.purge (.node (y.extendFrom old)))
    | _, _ =>
      forEntries merging fun k entry => do
        let oldBelow := (← current old).child k
        let newBelow := (← current new).child k
        let merged ← merge run fuel (← storedBelow stored k) entry oldBelow newBelow
        writeBelow stored k merged
      purged stored

end Shared

/-- Merges a later delta into an earlier one, and returns the later one as the merge leaves it
along with the merged one. -/
def Value.mergeDeltas (run : Nat) (stored merging old new : Value) :
    Except Fault (Delta × Delta) :=
  let size := stored.size + merging.size + old.size + new.size
  match (Shared.merge run size stored merging old new).run {} with
  | (.ok v, cells) =>
    .ok (.ofValue (cells.settled size v), .ofValue (cells.settled size merging))
  | (.error f, _) => .error f

end TreeDelta
