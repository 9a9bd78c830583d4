import TreeDelta.Settings.Overlay
import TreeDelta.Value.Cells
/-!
# Overlaying values

`Value.overlay` writes one value over another as `Settings.overlay` does with settings. It
takes any values: what is written over need not be a mapping, and parts of it may stand at
several places, where every write shows. Where nothing that is written into has a second place,
it comes to `Settings.overlay` (`Value.overlay_of_unshared`).
-/

namespace TreeDelta

namespace Settings

open Writing

/-- The value has the key, or has it among its elements. -/
def holds (target : Value) (k : Key) : Writing Bool := do
  match ← current target, k with
  | .map _ fields, k => return Fields.has k fields
  | .set _ keys, k => return keys.any k.same
  | .str text, .str part => return text.holds part
  | .str _, k => throw (.wrongType k.toValue.type)
  | v, k =>
    match v.sequence? with
    | some items => return items.any fun item => item.equalItem k.toValue
    | none => throw (.wrongType v.type)

/-- The number of the item of a sequence that a key names. -/
def placeIn (items : List Value) (k : Key) : Writing Nat := do
  match k.toValue.index? with
  | some (_, i) =>
    match itemAt? (List.range items.length) i with
    | some n => return n
    | none => throw .outOfRange
  | none => throw (.wrongType k.toValue.type)

def itemOf (target : Value) (k : Key) : Writing Value := do
  match ← current target with
  | .map _ fields =>
    match Fields.get? k fields with
    | some v => return v
    | none => throw .unknownName
  | v =>
    match v.sequence? with
    | some items => return items.getD (← placeIn items k) .null
    | none => throw (.wrongType v.type)

def put (target : Value) (k : Key) (v : Value) : Writing Unit := do
  match ← current target with
  | .map id fields => write id (.map id (Fields.put k v fields))
  | .list id items => do write id (.list id (items.set (← placeIn items k) v))
  | other => throw (.wrongType other.type)

def remove (target : Value) (k : Key) : Writing Unit := do
  match ← current target with
  | .map id fields => write id (.map id (Fields.erase k fields))
  | .list id items => do write id (.list id (items.eraseIdx (← placeIn items k)))
  | other => throw (.wrongType other.type)

/-- Takes an entry out if it is there, which only a mapping can do. -/
def discard (target : Value) (k : Key) : Writing Unit := do
  match ← current target with
  | .map id fields => write id (.map id (Fields.erase k fields))
  | other => throw (foreignTarget false other .null)

/-- Writes one value over another. `fuel` bounds the depth. -/
def overlayValue (run : Nat) (keepNull : Bool) : Nat → Value → Value → Writing Unit
  | 0, _, _ => throw .changedMeanwhile
  | fuel + 1, target, new =>
    forEntries new fun k v => do
      match v with
      | .map .. =>
        if !(← holds target k) then put target k (.map (← fresh run) [])
        overlayValue run keepNull fuel (← itemOf target k) v
        if !keepNull && !(← current (← itemOf target k)).isTruthy then remove target k
      | .null => if keepNull then put target k v else discard target k
      | v => put target k v

end Settings

/-- Writes one value over another (`recursive_update`), and returns the latter as it is then. -/
def Value.overlay (run : Nat) (keepNull : Bool) (target new : Value) : Except Fault Value :=
  let size := target.size + new.size
  match (Settings.overlayValue run keepNull size target new).run {} with
  | (.ok (), cells) => .ok (cells.settled size target)
  | (.error f, _) => .error f

end TreeDelta
