import TreeDelta.Fault
/-!
# Overlaying settings

`Settings.overlay` writes one set of nested settings over another. Where nulls are not kept, a
null takes its key away, and a section that is left without entries goes with it.
-/

namespace TreeDelta

namespace Settings

/-- The fault of writing an entry into something that is no mapping. -/
def foreignTarget (keepNull : Bool) (target entry : Value) : Fault :=
  match target, entry with
  | .list .., _ | .set .., _ => .wrongType target.type
  | _, .null => if keepNull then .wrongType target.type else .unsupported target.type
  | _, _ => .wrongType target.type

/-- The entry of a key after writing: taken away if it says nothing and nulls are not kept. -/
def settle (keepNull : Bool) (k : Key) (v : Value) (target : List (Key × Value)) :
    List (Key × Value) :=
  if keepNull || v.isTruthy then Fields.put k v target else Fields.erase k target

/-- Writes settings over others, in order (`recursive_update`). -/
def overlay (keepNull : Bool) (target : List (Key × Value)) :
    List (Key × Value) → Except Fault (List (Key × Value))
  | [] => .ok target
  | (k, .map id new) :: rest =>
    match (Fields.get? k target).getD (.map id []) with
    | .map old entries => do
      let entries ← overlay keepNull entries new
      overlay keepNull (settle keepNull k (.map old entries) target) rest
    | other =>
      match new with
      | [] => overlay keepNull (settle keepNull k other target) rest
      | (_, v) :: _ => .error (foreignTarget keepNull other v)
  | (k, .null) :: rest =>
    overlay keepNull (if keepNull then Fields.put k .null target else Fields.erase k target) rest
  | (k, v) :: rest => overlay keepNull (Fields.put k v target) rest

end Settings

end TreeDelta
