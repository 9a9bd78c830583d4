import TreeDelta.Value.Fields
/-!
# Equality of values

Three notions, from fine to coarse. Equality in Lean means one object. `Value.same` is the
notion by which an update changes something or not: containers are only the same as
themselves, numbers compare by exact value with truth values apart, other scalars by type and
content. `Value.equal` compares contents: `1`, `1.0` and `true` are equal, sequences element
by element, mappings regardless of order.
-/

namespace TreeDelta.Value

/-- The exact value of a number other than NaN. -/
def number? : Value → Option Exact
  | int i => some (.ofInt i)
  | float x => some (.ofDouble x)
  | _ => none

/-- The same, the truth values counting as 0 and 1. -/
def numeric? : Value → Option Exact
  | bool b => some (.ofInt (if b then 1 else 0))
  | v => v.number?

mutual
def equal : Value → Value → Bool
  | absent, absent => true
  | null, null => true
  | str a, str b => a = b
  | fn a, fn b => a = b
  | list _ as, list _ bs => equalItems as bs
  | tuple as, v => match v.tuple? with
    | some bs => equalItems as bs
    | none => false
  | op k a, v => match v.tuple? with
    | some [l, b] => equalItem k l && equalItem a b
    | _ => false
  | descend a, v => match v.tuple? with
    | some [b] => equalItem a b
    | _ => false
  | set _ as, set _ bs => as.length = bs.length && as.all fun k => bs.any k.same
  | map _ as, map _ bs => as.length = bs.length && equalFields as bs
  | node _ k o n, node _ l p m => equal k l && equal o p && equal n m
  | a, b => match a.numeric?, b.numeric? with
    | some x, some y => x = y
    | _, _ => false

/-- Elements are equal if they are one object or equal in content. -/
def equalItem (a b : Value) : Bool := decide (a = b) || equal a b

def equalItems : List Value → List Value → Bool
  | [], [] => true
  | a :: as, b :: bs => equalItem a b && equalItems as bs
  | _, _ => false

/-- Every entry of the first mapping has an equal one in the second. -/
def equalFields : List (Key × Value) → List (Key × Value) → Bool
  | [], _ => true
  | (k, a) :: as, bs =>
    (match Fields.get? k bs with
      | some b => equalItem a b
      | none => false) && equalFields as bs
end

def isContainer : Value → Bool
  | list .. | set .. | map .. => true
  | _ => false

/-- The values count as unchanged from one another (`is_same_value`). -/
def same (a b : Value) : Bool :=
  decide (a = b) ||
    (!a.isContainer && !b.isContainer &&
      match a.number?, b.number? with
      | some x, some y => decide (x = y)
      | _, _ => decide (a.type = b.type) && equal a b)

@[simp] theorem same_self (a : Value) : a.same a = true := by simp [same]

/-- A container is the same as itself only. -/
theorem same_container {a b : Value} (h : a.isContainer = true) :
    a.same b = true ↔ a = b := by
  simp [same, h]

end TreeDelta.Value
