import TreeDelta.Update.Operation
/-!
# Stock functions

Functions that an update can invoke by name. Each takes the value at a place, `absent` if there
is none, and returns what belongs there. One that makes a container gives it the identity
`fresh`.
-/

namespace TreeDelta

inductive Factory where
  /-- Always this value. -/
  | const (v : Value)
  | identity
  /-- One more; 0 where nothing is. -/
  | inc
  /-- Twice the number, or the sequence after itself. -/
  | double
  /-- Whether nothing is there. -/
  | isMissing
  /-- A list of the elements and one more. -/
  | append (v : Value)
  /-- A new mapping with the same entries, or list of the same elements. -/
  | clone
  /-- A mapping with the value under the key `was`. -/
  | wrap
  /-- Fails with this message. -/
  | raise (message : Text)

namespace Factory

def succ (fresh : Ident) : Value → Except Fault Value
  | .absent => .ok (.int 0)
  | .bool b => .ok (.int (if b then 2 else 1))
  | .int i => .ok (.int (i + 1))
  | .float x => .ok (.float x.succ)
  | .nan _ => .ok (.nan fresh)
  | v => .error (.badArgument v.type)

def twice (fresh : Ident) : Value → Except Fault Value
  | .bool b => .ok (.int (if b then 2 else 0))
  | .int i => .ok (.int (2 * i))
  | .float x => .ok (.float x.twice)
  | .nan _ => .ok (.nan fresh)
  | .str s => .ok (.str (s ++ s))
  | .list _ items => .ok (.list fresh (items ++ items))
  | v => match v.tuple? with
    | some items => .ok (.tuple (items ++ items))
    | none => .error (.badArgument v.type)

def call (fresh : Ident) (v : Value) : Factory → Except Fault Value
  | const w => .ok w
  | identity => .ok v
  | inc => succ fresh v
  | double => twice fresh v
  | isMissing => .ok (.bool (v = .absent))
  | append w =>
    if v = .absent then .ok (.list fresh [w])
    else match v.elements? with
      | some items => .ok (.list fresh (items ++ [w]))
      | none => .error (.badArgument v.type)
  | clone =>
    match v.fields?, v.elements? with
    | some fields, _ => .ok (.map fresh fields)
    | none, some items => .ok (.list fresh items)
    | none, none => .error (.badArgument v.type)
  | wrap => .ok (.map fresh [(.str "was", if v = .absent then .null else v)])
  | raise message => .error (.factory message)

def functions (table : List (Ident × Factory)) : Functions := fun id fresh v =>
  match table.find? fun (known, _) => known = id with
  | some (_, f) => f.call fresh v
  | none => .error .unknownName

end Factory

end TreeDelta
