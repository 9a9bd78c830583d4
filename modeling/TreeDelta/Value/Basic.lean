import TreeDelta.Number.Double
import TreeDelta.Text.Basic
/-!
# Values

A value is plain data: scalars, sequences, sets and mappings, the sentinel `absent` for a place
that holds nothing, functions, and the records of this library itself (change nodes and parsed
commands) where they stand among data.

Mutable containers are only ever the same as themselves, so each carries an `Ident`, the
container it is. NaN carries one as well, since it differs even from an equal NaN. Two values
that are equal in Lean are therefore one object, and every other notion of equality is a
function on top (`TreeDelta.Value.Equality`).
-/

namespace TreeDelta

mutual
/-- Which container this is: who made it (an input, a document or an update), and the keys that
lead to its place in that, the last one first. -/
structure Ident where
  source : Nat
  place : List Key

/-- What can stand as a key of a mapping: a scalar, or a tuple of keys, among which are the
parsed commands. -/
inductive Key where
  | absent
  | null
  | bool (b : Bool)
  | int (i : Int)
  | float (x : Double)
  | nan (id : Ident)
  | str (s : Text)
  | fn (id : Ident)
  | tuple (items : List Key)
  | op (kind argument : Key)
  | descend (children : Key)
end

instance : Inhabited Ident := ⟨⟨0, []⟩⟩

instance : Inhabited Key := ⟨.absent⟩

mutual
def Ident.beq : Ident → Ident → Bool
  | ⟨s, p⟩, ⟨t, q⟩ => decide (s = t) && Key.beqList p q

def Key.beq : Key → Key → Bool
  | .absent, .absent => true
  | .null, .null => true
  | .bool a, .bool b => a = b
  | .int a, .int b => a = b
  | .float a, .float b => a = b
  | .nan a, .nan b => Ident.beq a b
  | .str a, .str b => a = b
  | .fn a, .fn b => Ident.beq a b
  | .tuple a, .tuple b => Key.beqList a b
  | .op k a, .op l b => Key.beq k l && Key.beq a b
  | .descend a, .descend b => Key.beq a b
  | _, _ => false

def Key.beqList : List Key → List Key → Bool
  | [], [] => true
  | a :: as, b :: bs => Key.beq a b && Key.beqList as bs
  | _, _ => false
end

mutual
theorem Ident.beq_iff (a b : Ident) : Ident.beq a b = true ↔ a = b := by
  obtain ⟨s, p⟩ := a
  obtain ⟨t, q⟩ := b
  simp [Ident.beq, Key.beqList_iff p q]

theorem Key.beq_iff (a b : Key) : Key.beq a b = true ↔ a = b := by
  cases a <;> cases b <;> simp [Key.beq, Key.beqList_iff, Key.beq_iff, Ident.beq_iff]

theorem Key.beqList_iff (as bs : List Key) : Key.beqList as bs = true ↔ as = bs := by
  match as, bs with
  | [], [] => simp [Key.beqList]
  | [], _ :: _ => simp [Key.beqList]
  | _ :: _, [] => simp [Key.beqList]
  | a :: as, b :: bs => simp [Key.beqList, Key.beq_iff a b, Key.beqList_iff as bs]
end

instance : DecidableEq Ident := fun a b => decidable_of_iff _ (Ident.beq_iff a b)

instance : DecidableEq Key := fun a b => decidable_of_iff _ (Key.beq_iff a b)

/-- A value. Sets hold keys, in the order of `TreeDelta.Value.SetOrder`, and mappings list their
entries in insertion order. -/
inductive Value where
  | absent
  | null
  | bool (b : Bool)
  | int (i : Int)
  | float (x : Double)
  | nan (id : Ident)
  | str (s : Text)
  | list (id : Ident) (items : List Value)
  | tuple (items : List Value)
  | set (id : Ident) (items : List Key)
  | map (id : Ident) (fields : List (Key × Value))
  | fn (id : Ident)
  | node (id : Ident) (kind old new : Value)
  | op (kind argument : Value)
  | descend (children : Value)
deriving Inhabited

namespace Value

mutual
def beq : Value → Value → Bool
  | absent, absent => true
  | null, null => true
  | bool a, bool b => a = b
  | int a, int b => a = b
  | float a, float b => a = b
  | nan a, nan b => a = b
  | str a, str b => a = b
  | list i a, list j b => decide (i = j) && beqList a b
  | tuple a, tuple b => beqList a b
  | set i a, set j b => decide (i = j) && decide (a = b)
  | map i a, map j b => decide (i = j) && beqFields a b
  | fn a, fn b => a = b
  | node i k o n, node j k' o' n' => decide (i = j) && beq k k' && beq o o' && beq n n'
  | op k a, op k' a' => beq k k' && beq a a'
  | descend a, descend b => beq a b
  | _, _ => false

def beqList : List Value → List Value → Bool
  | [], [] => true
  | a :: as, b :: bs => beq a b && beqList as bs
  | _, _ => false

def beqFields : List (Key × Value) → List (Key × Value) → Bool
  | [], [] => true
  | (k, a) :: as, (l, b) :: bs => decide (k = l) && beq a b && beqFields as bs
  | _, _ => false
end

mutual
theorem beq_iff (a b : Value) : beq a b = true ↔ a = b := by
  cases a <;> cases b <;>
    simp [beq, beqList_iff, beqFields_iff, beq_iff, and_assoc]

theorem beqList_iff (as bs : List Value) : beqList as bs = true ↔ as = bs := by
  match as, bs with
  | [], [] => simp [beqList]
  | [], _ :: _ => simp [beqList]
  | _ :: _, [] => simp [beqList]
  | a :: as, b :: bs => simp [beqList, beq_iff a b, beqList_iff as bs]

theorem beqFields_iff (as bs : List (Key × Value)) : beqFields as bs = true ↔ as = bs := by
  match as, bs with
  | [], [] => simp [beqFields]
  | [], _ :: _ => simp [beqFields]
  | _ :: _, [] => simp [beqFields]
  | (k, a) :: as, (l, b) :: bs =>
    simp [beqFields, beq_iff a b, beqFields_iff as bs]
end

instance : DecidableEq Value := fun a b => decidable_of_iff _ (beq_iff a b)

end Value

def Key.toValue : Key → Value
  | .absent => .absent
  | .null => .null
  | .bool b => .bool b
  | .int i => .int i
  | .float x => .float x
  | .nan id => .nan id
  | .str s => .str s
  | .fn id => .fn id
  | .tuple items => .tuple (toValues items)
  | .op kind argument => .op kind.toValue argument.toValue
  | .descend children => .descend children.toValue
where
  toValues : List Key → List Value
    | [] => []
    | k :: ks => k.toValue :: toValues ks

mutual
/-- The key that a value makes; containers and change nodes make none. -/
def Value.toKey? : Value → Option Key
  | .absent => some .absent
  | .null => some .null
  | .bool b => some (.bool b)
  | .int i => some (.int i)
  | .float x => some (.float x)
  | .nan id => some (.nan id)
  | .str s => some (.str s)
  | .fn id => some (.fn id)
  | .tuple items => (Value.toKeys? items).map .tuple
  | .op kind argument => do some (.op (← kind.toKey?) (← argument.toKey?))
  | .descend children => children.toKey?.map .descend
  | .list .. | .set .. | .map .. | .node .. => none

def Value.toKeys? : List Value → Option (List Key)
  | [] => some []
  | v :: vs => do some ((← v.toKey?) :: (← Value.toKeys? vs))
end

namespace Value

/-- The elements of a tuple. Parsed commands are tuples of their fields. -/
def tuple? : Value → Option (List Value)
  | tuple items => some items
  | op kind argument => some [kind, argument]
  | descend children => some [children]
  | _ => none

def sequence? : Value → Option (List Value)
  | list _ items => some items
  | v => v.tuple?

/-- The elements of whatever has elements: items, keys or signs. -/
def elements? : Value → Option (List Value)
  | set _ items => some (items.map Key.toValue)
  | map _ fields => some (fields.map fun (k, _) => k.toValue)
  | str s => some (s.map fun sign => str [sign])
  | v => v.sequence?

/-- The number that a value is when it names an item, and the value as a key. -/
def index? : Value → Option (Key × Int)
  | int i => some (.int i, i)
  | bool b => some (.bool b, if b then 1 else 0)
  | _ => none

def fields? : Value → Option (List (Key × Value))
  | map _ fields => some fields
  | _ => none

/-- Nothing there, or null (`is_absent`). -/
def isAbsent : Value → Bool
  | absent | null => true
  | _ => false

/-- Neither null, false, zero nor empty. -/
def isTruthy : Value → Bool
  | null => false
  | bool b => b
  | int i => i ≠ 0
  | float (.finite _ rank) => rank.val ≠ 0
  | str s => !s.isEmpty
  | list _ items | tuple items => !items.isEmpty
  | set _ items => !items.isEmpty
  | map _ fields => !fields.isEmpty
  | _ => true

end Value

/-- The item of a number; negative numbers count from the end. -/
def itemAt? {α : Type} (items : List α) (i : Int) : Option α :=
  if 0 ≤ i then items[i.toNat]?
  else if (-i).toNat ≤ items.length then items[items.length - (-i).toNat]?
  else none

inductive TypeName where
  | absent | null | bool | int | float | str | list | tuple | set | map | fn | node | op | descend
deriving DecidableEq, Repr

def Value.type : Value → TypeName
  | .absent => .absent
  | .null => .null
  | .bool _ => .bool
  | .int _ => .int
  | .float _ | .nan _ => .float
  | .str _ => .str
  | .list .. => .list
  | .tuple _ => .tuple
  | .set .. => .set
  | .map .. => .map
  | .fn _ => .fn
  | .node .. => .node
  | .op .. => .op
  | .descend _ => .descend

def TypeName.text : TypeName → Text
  | absent => "object"
  | null => "NoneType"
  | bool => "bool"
  | int => "int"
  | float => "float"
  | str => "str"
  | list => "list"
  | tuple => "tuple"
  | set => "set"
  | map => "dict"
  | fn => "function"
  | node => "DiffNode"
  | op => "Op"
  | descend => "Descend"

end TreeDelta
