import TreeDelta.Value.Show
/-!
# Trails

A trail is the way from the root to a place, as the texts of the keys passed. `Trail.text`
writes it with slashes for messages; empty steps and bare slashes leave no trace in it.
-/

namespace TreeDelta

abbrev Trail := List Text

namespace Trail

/-- The trail as one text that starts with a slash (`join_path`). -/
def text (trail : Trail) : Text :=
  let joined := Text.intercalate "/" (trail.filter fun step => step ≠ [] && step ≠ "/")
  if joined.head? = some (.char '/') then joined else "/" ++ joined

def ofValues (steps : List Value) : Trail := steps.map Value.plain

end Trail

/-- The keys that a value names as a path (`as_path`): none for null, its elements for a
sequence, and itself for anything else. -/
def Value.asPath : Value → List Value
  | .null => []
  | v => v.sequence?.getD [v]

/-- The elements of the arguments: those of a single sequence or set, or the arguments. -/
def Value.pathArguments : List Value → List Value
  | [.set _ items] => items.map Key.toValue
  | [v] => v.sequence?.getD [v]
  | vs => vs

end TreeDelta
