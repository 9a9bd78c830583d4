import TreeDelta.Value.Fields
/-!
# JSON documents

The data that JSON text stands for. Objects list their members in order. Whole numbers are
kept apart from numbers with a fraction or an exponent, and infinities and NaN are allowed.
-/

namespace TreeDelta

inductive Json where
  | null
  | bool (b : Bool)
  | int (i : Int)
  | float (x : Double)
  | nan
  | str (s : Text)
  | arr (items : List Json)
  | obj (members : List (Text × Json))
deriving Inhabited

namespace Json

/-- Writes a member: in its place if the name is there, otherwise at the end. -/
def put (name : Text) (j : Json) : List (Text × Json) → List (Text × Json)
  | [] => [(name, j)]
  | (other, k) :: rest =>
    if name = other then (other, j) :: rest else (other, k) :: put name j rest

/-- The members of a list in which names may repeat: a repeated name keeps its first place and
its last value. -/
def ofMembers (members : List (Text × Json)) : List (Text × Json) :=
  members.foldl (fun acc (name, j) => put name j acc) []

def get? (name : Text) : Json → Option Json
  | obj members => (members.find? fun m => m.1 = name).map (·.2)
  | _ => none

end Json

/-- The NaN of JSON text; all its occurrences are one object. -/
def Ident.ofNaN : Ident := ⟨0, []⟩

mutual
/-- The value of a document. `run` tells its containers from all others; their place in the
document tells them from one another. -/
def Value.ofJson (run : Nat) (place : List Key) : Json → Value
  | .null => .null
  | .bool b => .bool b
  | .int i => .int i
  | .float x => .float x
  | .nan => .nan Ident.ofNaN
  | .str s => .str s
  | .arr items => .list ⟨run, place⟩ (Value.ofItems run place 0 items)
  | .obj members => .map ⟨run, place⟩ (Value.ofMembers run place 0 members)

def Value.ofItems (run : Nat) (place : List Key) (i : Nat) : List Json → List Value
  | [] => []
  | j :: rest => Value.ofJson run (.int i :: place) j :: Value.ofItems run place (i + 1) rest

def Value.ofMembers (run : Nat) (place : List Key) (i : Nat) :
    List (Text × Json) → List (Key × Value)
  | [] => []
  | (name, j) :: rest =>
    (.str name, Value.ofJson run (.int i :: place) j) :: Value.ofMembers run place (i + 1) rest
end

end TreeDelta
