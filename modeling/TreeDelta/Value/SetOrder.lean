import TreeDelta.Value.Fields
/-!
# Order of a set

A set lists its elements in the order of the slots that they take in a table. Each element has
a number, `Key.slotNumber?`, which is one for all spellings of a key; it takes the first free
slot of a sequence that depends on its number alone. The table has eight slots at first and is
made anew, with room for four times its elements, when three fifths of it are taken.

Numbers and tuples of numbers have slot numbers that depend on their values. Other elements
have none here, and a set that holds one keeps the order in which its elements were added.
-/

namespace TreeDelta

namespace SetOrder

/-- Slot numbers of numbers are residues of this prime. -/
def modulus : Nat := Nat.pow 2 61 - 1

/-- A signed residue as a word; `-1` is not used. -/
def ofResidue (negative : Bool) (residue : Nat) : UInt64 :=
  let n := UInt64.ofNat residue
  if negative then (if residue = 1 then 0 - 2 else 0 - n) else n

/-- The residue of a number of units. A unit is `2 ^ -1074`, and `2 ^ 61` leaves one, so that
a unit leaves `2 ^ 24`. -/
def ofUnits (units : Int) : UInt64 :=
  ofResidue (units < 0) (units.natAbs * Nat.pow 2 24 % modulus)

def rotate (w : UInt64) : UInt64 := (w <<< 31) ||| (w >>> 33)

/-- Mixes the numbers of the elements of a tuple. -/
def mix (numbers : List UInt64) : UInt64 :=
  let mixed := numbers.foldl (fun acc n =>
    rotate (acc + n * 14029467366897019727) * 11400714785074694791) 2870177450012600261
  let mixed := mixed + (UInt64.ofNat numbers.length ^^^ (2870177450012600261 ^^^ 3527539))
  if mixed = 0 - 1 then 1546275796 else mixed

end SetOrder

mutual
/-- The slot number of a key in canonical spelling, if its value decides it. -/
def Key.canonNumber? : Key → Option UInt64
  | .int i => some (SetOrder.ofResidue (i < 0) (i.natAbs % SetOrder.modulus))
  | .float (.infinite negative) => some (SetOrder.ofResidue negative 314159)
  | .float x => x.units?.map SetOrder.ofUnits
  | .tuple items => (Key.canonNumbers? items).map SetOrder.mix
  | _ => none

def Key.canonNumbers? : List Key → Option (List UInt64)
  | [] => some []
  | k :: ks => do some ((← k.canonNumber?) :: (← Key.canonNumbers? ks))
end

/-- The slot number of a key, if its value decides it. -/
def Key.slotNumber? (k : Key) : Option UInt64 := k.canon.canonNumber?

namespace SetOrder

/-- An element with its slot number. -/
abbrev Numbered := Key × UInt64

abbrev Table := Array (Option Numbered)

def emptyTable (size : Nat) : Table := Array.replicate size none

/-- The slot of a number: ten neighbouring slots are tried where there are as many, otherwise
one, and then the search goes on elsewhere. -/
def freeSlot (table : Table) : Nat → Nat → Nat → Nat
  | 0, slot, _ => slot
  | fuel + 1, slot, number =>
    let neighbours := if slot + 9 < table.size then 10 else 1
    match (List.range neighbours).find? fun k => (table.getD (slot + k) none).isNone with
    | some k => slot + k
    | none =>
      let number := number / 32
      freeSlot table fuel ((5 * slot + 1 + number) % table.size) number

def place (table : Table) (e : Numbered) : Table :=
  let number := e.2.toNat
  table.setIfInBounds (freeSlot table (2 * table.size + 16) (number % table.size) number) (some e)

def elements (table : Table) : List Numbered := table.toList.filterMap id

/-- The size of a new table for so many elements. -/
def sizeFor (count : Nat) : Nat → Nat → Nat
  | 0, size => size
  | fuel + 1, size => if size ≤ 4 * count then sizeFor count fuel (2 * size) else size

/-- Adds an element, and makes the table anew if it has become too full. -/
def add (table : Table) (e : Numbered) : Table :=
  let table := place table e
  let taken := elements table
  if 5 * taken.length < 3 * (table.size - 1) then table
  else taken.foldl place (emptyTable (sizeFor taken.length 64 8))

/-- The elements of a set in order, given as they were added. -/
def ordered (items : List Key) : List Key :=
  match items.mapM fun k => k.slotNumber?.map (k, ·) with
  | some numbered => (elements (numbered.foldl add (emptyTable 8))).map (·.1)
  | none => items

/-- The elements of a set, given as they are added: of those that are one key the first
counts. -/
def distinct (items : List Key) : List Key :=
  ordered (Fields.keys (Fields.ofList (items.map fun k => (k, ()))))

end SetOrder

/-- The set of some keys, given as they are added. -/
def Value.setOf (id : Ident) (keys : List Key) : Value := .set id (SetOrder.distinct keys)

end TreeDelta
