import TreeDelta.Fault
/-!
# Writing into containers

Containers and changes have an identity, and what is written into one shows wherever it stands.
`Cells` keeps, by identity, what each of them holds since it was last written to, and
`Cells.current` looks there first. `Writing` is the monad of steps that write. In the end
`Cells.settled` brings a value up to date throughout.
-/

namespace TreeDelta

/-- What has been written so far, the latest first, and the number of the next new object. -/
structure Cells where
  cells : List (Ident × Value) := []
  next : Nat := 0

/-- Steps that write into containers. -/
abbrev Writing := ExceptT Fault (StateM Cells)

namespace Value

def ident? : Value → Option Ident
  | list id _ | set id _ | map id _ | node id _ _ _ => some id
  | _ => none

mutual
/-- The containers and changes in a value, each as often as it stands there. -/
def idents : Value → List Ident
  | list id items => id :: identsOf items
  | tuple items => identsOf items
  | set id _ => [id]
  | map id fields => id :: identsIn fields
  | node id label old new => id :: (label.idents ++ old.idents ++ new.idents)
  | op kind argument => kind.idents ++ argument.idents
  | descend children => children.idents
  | _ => []

def identsOf : List Value → List Ident
  | [] => []
  | v :: rest => v.idents ++ identsOf rest

def identsIn : List (Key × Value) → List Ident
  | [] => []
  | (_, v) :: rest => v.idents ++ identsIn rest
end

mutual
/-- How many values there are in a value, itself included. -/
def size : Value → Nat
  | list _ items | tuple items => 1 + sizes items
  | map _ fields => 1 + sizesIn fields
  | node _ label old new => 1 + label.size + old.size + new.size
  | op kind argument => 1 + kind.size + argument.size
  | descend children => 1 + children.size
  | _ => 1

def sizes : List Value → Nat
  | [] => 0
  | v :: rest => v.size + sizes rest

def sizesIn : List (Key × Value) → Nat
  | [] => 0
  | (_, v) :: rest => v.size + sizesIn rest
end

end Value

namespace Cells

/-- What a value holds now. What stands inside may be out of date itself. -/
def current (cells : Cells) (v : Value) : Value :=
  (v.ident?.bind fun id => cells.cells.lookup id).getD v

/-- The value with everything in it as it is now. `fuel` bounds the depth. -/
def settled (cells : Cells) : Nat → Value → Value
  | 0, v => v
  | fuel + 1, v =>
    let settled := cells.settled fuel
    match cells.current v with
    | .list id items => .list id (items.map settled)
    | .tuple items => .tuple (items.map settled)
    | .map id fields => .map id (Fields.mapValues settled fields)
    | .node id label before after => .node id (settled label) (settled before) (settled after)
    | .op kind argument => .op (settled kind) (settled argument)
    | .descend children => .descend (settled children)
    | v => v

end Cells

namespace Writing

def current (v : Value) : Writing Value := do return (← get).current v

/-- Writes what a container or change holds from now on. -/
def write (id : Ident) (v : Value) : Writing Unit :=
  modify fun cells => { cells with cells := (id, v) :: cells.cells }

def fresh (run : Nat) : Writing Ident :=
  modifyGet fun cells => (⟨run, [.int cells.next]⟩, { cells with next := cells.next + 1 })

/-- The mapping still has `n` entries. -/
def checkSize (v : Value) (n : Nat) : Writing Unit := do
  if ((← current v).fields?.map List.length) ≠ some n then throw .changedMeanwhile

/-- Goes through the entries of a mapping as they are when their turn comes. The mapping must
not grow or shrink on the way. -/
def forEntries (v : Value) (step : Key → Value → Writing Unit) : Writing Unit := do
  match (← current v).fields? with
  | none => throw (.unsupported v.type)
  | some entries =>
    let n := entries.length
    for i in List.range n do
      checkSize v n
      if let some (k, entry) := ((← current v).fields?.getD [])[i]? then step k entry
    checkSize v n

end Writing

end TreeDelta
