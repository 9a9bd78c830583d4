import TreeDelta.Delta.Merge
import TreeDelta.Delta.Listing
/-!
# Accumulating deltas

An accumulator keeps the value before a series of updates, the latest value, and the net delta
from the one to the other.
-/

namespace TreeDelta

structure Accumulator where
  initial : Value
  value : Value
  delta : Delta

namespace Accumulator

def start (v : Value) : Accumulator := ⟨v, v, .nothing⟩

/-- Folds in the delta of an update that led to `v` (`DiffAccumulator.add`). If it does not fit,
the accumulator keeps its values, and its delta is what the merge had made of it. -/
def add (acc : Accumulator) (v : Value) (d : Delta) : Accumulator × Option Fault :=
  match d.stray? with
  | some stray => (acc, some (.unsupported stray.type))
  | none =>
    match acc.delta.merge acc.initial v d with
    | .ok merged => (⟨acc.initial, v, merged⟩, none)
    | .error e => (⟨acc.initial, acc.value, e.reached⟩, some e.fault)

def addLog (acc : Accumulator) (v : Value) (d : Delta) : List LogEntry :=
  if d.isNothing then []
  else ⟨.debug, "Accumulating diff " ++ d.shown⟩ ::
    (((acc.add v d).2.map Fault.mergeLog).getD [])

/-- Starts over from the latest value (`DiffAccumulator.reset`). -/
def reset (acc : Accumulator) : Accumulator := start acc.value

def hasChanged (acc : Accumulator) : Bool := !acc.delta.isNothing

end Accumulator

end TreeDelta
