import TreeDelta.Value.Fields
/-!
# Commands

A command is a tree. Inner nodes descend into the keys of a mapping, and leaves apply one
`Operation` with its argument to the value they meet. A leaf may also name an operation that
does not exist; applying it fails.
-/

namespace TreeDelta

/-- What a command can do to a value (`OperationKind`). -/
inductive Operation where
  | set | push | unshift | merge | defaults | invoke
deriving DecidableEq, Repr

namespace Operation

def all : List Operation := [set, push, unshift, merge, defaults, invoke]

def name : Operation → Text
  | set => "$set"
  | push => "$push"
  | unshift => "$unshift"
  | merge => "$merge"
  | defaults => "$defaults"
  | invoke => "$invoke"

def key (o : Operation) : Key := .str o.name

def ofValue? (v : Value) : Option Operation := all.find? fun o => v = .str o.name

theorem mem_all (o : Operation) : o ∈ all := by cases o <;> simp [all]

theorem ofValue?_name (o : Operation) : ofValue? (.str o.name) = some o := by
  cases o <;> decide

end Operation

inductive Command where
  | op (kind : Operation) (argument : Value)
  | unknown (kind argument : Value)
  | descend (children : List (Key × Command))
deriving Inhabited

namespace Command

def ofOp (kind argument : Value) : Command :=
  match Operation.ofValue? kind with
  | some o => op o argument
  | none => unknown kind argument

end Command

end TreeDelta
