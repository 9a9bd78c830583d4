import TreeDelta.Value.Equality
import TreeDelta.Sorting.Adaptive
/-!
# Order of keys

Numbers compare by value, texts by the codes of their signs, tuples by their first differing
elements; keys of different kinds do not compare, and null compares with nothing. `sortKeys?`
sorts keys when all of them compare with one another. NaN is neither less nor greater than any
number, so keys that hold one have no order, and only the comparisons that a sort makes decide.
-/

namespace TreeDelta

namespace Key

def numeric? (k : Key) : Option Exact := k.toValue.numeric?

def isNumeric : Key → Bool
  | bool _ | int _ | float _ | nan _ => true
  | _ => false

mutual
/-- How two keys in canonical spelling compare, if they do. -/
def compareCanon? : Key → Key → Option Ordering
  | str a, str b => some (compare a b)
  | tuple as, tuple bs => compareItems? as bs
  | a, b =>
    if a.isNumeric && b.isNumeric then
      match a.numeric?, b.numeric? with
      | some x, some y => some (x.compare y)
      | _, _ => some .eq
    else none

def compareItems? : List Key → List Key → Option Ordering
  | [], [] => some .eq
  | [], _ :: _ => some .lt
  | _ :: _, [] => some .gt
  | a :: as, b :: bs => if a = b then compareItems? as bs else compareCanon? a b
end

/-- How two keys compare, if they do. -/
def compare? (a b : Key) : Option Ordering := compareCanon? a.canon b.canon

/-- In order, or not comparable. -/
def le (a b : Key) : Bool := compare? a b ≠ some .gt

/-- Before the other key, if the two compare. -/
def lt? (a b : Key) : Option Bool := (compare? a b).map (· = .lt)

def Comparable (keys : List Key) : Prop := keys.Pairwise fun a b => (compare? a b).isSome

instance (keys : List Key) : Decidable (Comparable keys) :=
  inferInstanceAs (Decidable (List.Pairwise _ _))

mutual
/-- The key is or holds a NaN. -/
def hasNaN : Key → Bool
  | nan _ => true
  | tuple items => anyNaN items
  | op kind argument => kind.hasNaN || argument.hasNaN
  | descend children => children.hasNaN
  | _ => false

def anyNaN : List Key → Bool
  | [] => false
  | k :: ks => k.hasNaN || anyNaN ks
end

end Key

/-- Items in increasing order of their keys, if all of these compare. -/
def sortBy? {α : Type} (key : α → Key) (items : List α) : Option (List α) :=
  if Key.anyNaN (items.map key) then Sorting.adaptiveSort (fun a b => (key a).lt? (key b)) items
  else if Key.Comparable (items.map key) then
    some (items.mergeSort fun a b => (key a).le (key b))
  else none

def sortKeys? (keys : List Key) : Option (List Key) := sortBy? id keys

/-- The entries in increasing order of their keys, if all of these compare. -/
def sortFields? {α : Type} (fields : List (Key × α)) : Option (List (Key × α)) :=
  sortBy? (·.1) fields

end TreeDelta
